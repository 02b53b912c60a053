import Mathlib
import CellPack.Proofs.Operations
import CellPack.Proofs.Values
/-!
# Runs

How a run that writes and a run that reads can end, and what it means that the second one reads back
what the first one has written.
-/

namespace CellPack

open Step

/-! ## Errors -/

namespace RuntimeError

/-- The run reached one of its limits. -/
def isLimit : RuntimeError → Bool
  | outOfSteps _ | nestedTooDeep _ => true
  | _ => false

/-- The value is not one that the program writes. -/
def isRefusal : RuntimeError → Bool
  | shapeMismatch _ _ | missingField _ _ | cell (.valueOutOfRange _) => true
  | _ => false

/-- The cell is not one that the program reads. -/
def isRejection : RuntimeError → Bool
  | headerMismatch _ _ => true
  | cell error => error.isMalformed
  | _ => false

end RuntimeError

/-- The error is a limit, or the refusal of a value that does not conform. -/
def Refuses (valid conforms : Prop) (e : RuntimeError) : Prop :=
  e.isLimit = true ∨ e.isRefusal = true ∧ (valid → ¬conforms)

/-- The error is a limit, or about what the cell holds. -/
def Rejects (e : RuntimeError) : Prop := e.isLimit = true ∨ e.isRejection = true

theorem Refuses.mono {valid conforms conforms' : Prop} {e : RuntimeError}
    (h : Refuses valid conforms e) (hc : conforms' → conforms) : Refuses valid conforms' e := by
  rcases h with h | ⟨h, hnot⟩
  · exact .inl h
  · exact .inr ⟨h, fun hv hc' => hnot hv (hc hc')⟩

/-! ## Reading back -/

namespace Run

variable {α β : Type} {l : Slice → Run (α × Slice)} {e e' : Builder} {k k' : Nat} {a : α}

/-- Reading takes the piece from the front of any slice, in at most `k` steps. -/
def Reads (l : Slice → Run (α × Slice)) (e : Builder) (k : Nat) (a : α) : Prop :=
  ∃ used ≤ k, ∀ rest n, used ≤ n → (l (e.onto rest)).run n = (.ok (a, rest), n - used)

theorem Reads.bind {f : α → Slice → Run (β × Slice)} {b : β} (h : Reads l e k a)
    (hf : Reads (f a) e' k' b) :
    Reads (fun s => l s >>= fun r => f r.1 r.2) (e ++ e') (k + k') b := by
  obtain ⟨used, hused, hl⟩ := h
  obtain ⟨used', hused', hf⟩ := hf
  refine ⟨used + used', Nat.add_le_add hused hused', fun rest n hn => ?_⟩
  rw [Builder.onto_append, Step.run_bind_ok (hl _ n (by omega)), hf rest _ (by omega), Nat.sub_sub]

theorem reads_pure (a : α) : Reads (fun s => pure (a, s)) {} 0 a :=
  ⟨0, le_refl 0, fun _ _ _ => rfl⟩

theorem run_read {l : Load α} {s s' : Slice} (h : l.run s = (.ok a, s')) (n : Nat) :
    (read l s).run n = (.ok (a, s'), n) := by
  unfold read
  rw [h]
  rfl

theorem reads_read {l : Load α} (h : Load.Reads l e a) : Reads (read l) e 0 a :=
  ⟨0, le_refl 0, fun rest n _ => run_read (h rest) n⟩

/-- Reading from a cell of its own, behind a reference. -/
theorem Reads.boxed (h : Reads l e k a) :
    Reads (fun s => do
      let (c, s) ← read Slice.loadRef s
      let (v, _) ← l c.toSlice
      return (v, s)) (.ofRef e.toCell) k a := by
  obtain ⟨used, hused, hl⟩ := h
  refine ⟨used, hused, fun rest n hn => ?_⟩
  rw [Step.run_bind_ok (run_read (Slice.reads_loadRef e.toCell rest) n)]
  change (l e.toCell.toSlice >>= fun r => pure (r.1, rest)).run n = _
  rw [Builder.toSlice_toCell, Step.run_bind_ok (hl _ n hn)]
  rfl

theorem ends_read {l : Load α} {P : α → Prop} (h : Load.Yields l P) (s : Slice) (n : Nat) :
    Ends (read l s) n (fun r _ => P r.1) fun e _ => Rejects e := by
  unfold read
  rcases hl : l.run s with ⟨err | a, s'⟩
  · exact ends_throw (.inr ((h s).bad_of_run hl))
  · exact ends_pure ((h s).ok_of_run hl)

end Run

/-! ## Writing -/

/--
The builder has got a piece of at most so many bits and references. Reading gives it back as `v`, in
no more steps than were taken to write it.
-/
def Wrote (l : Slice → Run (Value × Slice)) (v : Value) (bits refs : Nat) (b : Builder) (n : Nat)
    (b' : Builder) (n' : Nat) : Prop :=
  ∃ e k, b' = b ++ e ∧ n = n' + k ∧ e.bits.length ≤ bits ∧ e.refs.length ≤ refs ∧ Run.Reads l e k v

theorem Wrote.mono {l : Slice → Run (Value × Slice)} {v : Value} {bits bits' refs refs' : Nat}
    {b b' : Builder} {n n' : Nat} (h : Wrote l v bits refs b n b' n') (hb : bits ≤ bits')
    (hr : refs ≤ refs') : Wrote l v bits' refs' b n b' n' := by
  obtain ⟨e, k, hb', hn, he, her, hreads⟩ := h
  exact ⟨e, k, hb', hn, he.trans hb, her.trans hr, hreads⟩

namespace Run

theorem run_write {w : Write Unit} {e b : Builder} (h : Write.Appends w (some e))
    (hb : b.HasRoom e) (n : Nat) : (write w b).run n = (.ok (b ++ e), n) := by
  unfold write
  rw [h b hb]
  rfl

/-- A write that appends its piece or refuses a value that does not conform. -/
theorem ends_write {w : Write Unit} {piece : Option Builder} (hw : Write.Appends w piece)
    {l : Slice → Run (Value × Slice)} {v : Value} {bits refs : Nat} {valid conforms : Prop}
    {b : Builder} (n : Nat) (hbits : b.bits.length + bits ≤ maxCellBits)
    (hrefs : b.refs.length + refs ≤ maxCellRefs)
    (hsome : ∀ e, piece = some e →
      conforms ∧ e.bits.length ≤ bits ∧ e.refs.length ≤ refs ∧ Reads l e 0 v)
    (hnone : piece = none → valid → ¬conforms) :
    Ends (write w b) n (fun b' n' => conforms ∧ Wrote l v bits refs b n b' n')
      fun err _ => Refuses valid conforms err := by
  cases piece with
  | some e =>
    obtain ⟨hconf, hb, hr, hreads⟩ := hsome e rfl
    have hroom : b.HasRoom e := ⟨by omega, by omega⟩
    exact .of_ok (run_write hw hroom n) ⟨hconf, e, 0, rfl, rfl, hb, hr, hreads⟩
  | none =>
    obtain ⟨m, hm⟩ := hw b
    have : (write w b).run n = (.error (.cell (.valueOutOfRange m)), n) := by
      unfold write
      rw [hm]
      rfl
    exact .of_error this (.inr ⟨rfl, hnone rfl⟩)

end Run

/-- The way to a cell of its own. -/
theorem Wrote.boxed {l : Slice → Run (Value × Slice)} {v : Value} {bits refs : Nat}
    {child b : Builder} {n n' : Nat} (h : Wrote l v bits refs {} n child n')
    (hb : b.bits.length ≤ maxCellBits) (hr : b.refs.length + 1 ≤ maxCellRefs) :
    ∃ b', (Run.write (Builder.storeRef child.toCell) b).run n' = (.ok b', n')
      ∧ Wrote (fun s => do
          let (c, s) ← Run.read Slice.loadRef s
          let (v, _) ← l c.toSlice
          return (v, s)) v 0 1 b n b' n' := by
  obtain ⟨e, k, rfl, hn, -, -, hreads⟩ := h
  have hroom : b.HasRoom (.ofRef (({} : Builder) ++ e).toCell) := ⟨by simpa using hb, hr⟩
  refine ⟨_, Run.run_write (Builder.puts_storeRef _).appends hroom n', _, k, rfl, hn, ?_, ?_, hreads.boxed⟩
  · exact le_refl 0
  · exact le_refl 1

namespace Machine

variable {shape : String → Option Shape} {first : String → CellSize} {nested : String → Prop}
  {valid : Prop} {store : String → Builder → Value → Run Builder}
  {load : String → Slice → Run (Value × Slice)}

/-- The program that writes a record does so as the one that reads it expects. -/
def StoresRecord (shape : String → Option Shape) (first : String → CellSize) (valid : Prop)
    (store : String → Builder → Value → Run Builder) (load : String → Slice → Run (Value × Slice))
    (name : String) : Prop :=
  ∀ (b : Builder) (entries : List (String × Value)) (n : Nat),
    b.bits.length + (first name).bits ≤ maxCellBits →
    b.refs.length + (first name).refs ≤ maxCellRefs →
    Ends (store (ProcName.store name) b (.record entries)) n
      (fun b' n' => Value.Conforms shape (.record name) (.record entries)
        ∧ Wrote (load (ProcName.load name)) (Value.norm shape (.record name) (.record entries))
          (first name).bits (first name).refs b n b' n')
      fun e _ => Refuses valid (Value.Conforms shape (.record name) (.record entries)) e

/-- The program that reads a record gives an exact one. -/
def LoadsRecord (shape : String → Option Shape) (load : String → Slice → Run (Value × Slice))
    (name : String) : Prop :=
  ∀ (s : Slice) (n : Nat), Ends (load (ProcName.load name) s) n
    (fun r _ => Value.Exact shape (.record name) r.1) fun e _ => Rejects e

end Machine
end CellPack
