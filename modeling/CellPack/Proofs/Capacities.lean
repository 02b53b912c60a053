import Mathlib
import CellPack.Proofs.Compiled
/-!
# Cells within their capacity

No run makes a cell with more bits or references than one can have: out of a value whose cells are
within their capacity, every program writes such cells (`Machine.capped_storeAfter`), whatever its
instructions are.
-/

namespace CellPack

open Step

/-- The cell and all cells below it have no more bits and references than a cell can have. -/
inductive Cell.Capped : Cell → Prop where
  | mk {bits : List Bool} {refs : List Cell} (bits_le : bits.length ≤ maxCellBits)
    (refs_le : refs.length ≤ maxCellRefs) (below : ∀ c ∈ refs, Capped c) : Capped (.mk bits refs)

/-- All cells in the value are within their capacity, as all cells are that builders made. -/
inductive Value.Capped : Value → Prop where
  | null : Capped .null
  | int (v : Int) : Capped (.int v)
  | bool (b : Bool) : Capped (.bool b)
  | address (a : Address) : Capped (.address a)
  | bits (bytes : List UInt8) : Capped (.bits bytes)
  | cell {c : Cell} (h : c.Capped) : Capped (.cell c)
  | string (s : String) : Capped (.string s)
  | record {fields : List (String × Value)} (h : ∀ field ∈ fields, Capped field.2) :
    Capped (.record fields)

theorem Value.Capped.of_cell {c : Cell} (h : (Value.cell c).Capped) : c.Capped := by
  cases h with
  | cell h => exact h

theorem Value.Capped.of_lookup {fields : List (String × Value)} {field : String} {v : Value}
    (h : (Value.record fields).Capped) (hv : fields.lookup field = some v) : v.Capped := by
  cases h with
  | record h => exact h _ (mem_of_lookup hv)

/-! ## Builders -/

namespace Builder

/-- The cell that is written is within its capacity. -/
def Capped (b : Builder) : Prop := b.toCell.Capped

theorem capped_empty : Capped {} := .mk (Nat.zero_le _) (Nat.zero_le _) (by simp)

theorem Capped.hasRoom {b : Builder} (h : b.Capped) : b.HasRoom {} := by
  cases h with
  | mk bits_le refs_le _ => exact ⟨bits_le, refs_le⟩

theorem Capped.append {b e : Builder} (h : b.Capped) (hroom : b.HasRoom e)
    (he : ∀ c ∈ e.refs, c.Capped) : (b ++ e).Capped := by
  cases h with
  | mk _ _ below =>
    refine .mk ?_ ?_ fun c hc => ?_
    · simpa using hroom.1
    · simpa using hroom.2
    · exact (List.mem_append.1 hc).elim (below c) (he c)

end Builder

namespace Write

variable {α β : Type}

/-- If it succeeds, the step leaves the cell within its capacity. -/
def KeepsCapped (w : Write α) : Prop :=
  ∀ b : Builder, b.Capped → Ends w b (fun _ b' => b'.Capped) fun _ _ => True

theorem KeepsCapped.bind {w : Write α} {k : α → Write β} (hw : KeepsCapped w)
    (hk : ∀ a, KeepsCapped (k a)) : KeepsCapped (w >>= k) :=
  fun b hb => (hw b hb).bind fun a b' hb' => hk a b' hb'

/-- A piece that was put had room. -/
theorem Puts.keepsCapped {w : Write Unit} {piece : Option Builder} (h : w.Puts piece)
    (hcells : ∀ e, piece = some e → ∀ c ∈ e.refs, c.Capped) : KeepsCapped w := by
  intro b hb
  cases piece with
  | none =>
    obtain ⟨n, hrun⟩ := h.appends b
    exact .of_error hrun trivial
  | some e =>
    by_cases hroom : b.HasRoom e
    · exact .of_ok (h.appends b hroom) (hb.append hroom (hcells e rfl))
    · exact .of_error (h.full rfl hb.hasRoom hroom) trivial

/-- Bits hold no cells. -/
theorem Puts.keepsCapped_bits {w : Write Unit} {bits : Option (List Bool)}
    (h : w.Puts (bits.map Builder.ofBits)) : KeepsCapped w := by
  refine h.keepsCapped fun e he => ?_
  obtain ⟨bits, -, rfl⟩ := Option.map_eq_some_iff.1 he
  exact List.forall_mem_nil _

end Write

namespace Builder

open Write

theorem keepsCapped_storeBit (bit : Bool) : KeepsCapped (storeBit bit) := by
  have hputs : Puts (storeBit bit) ((some [bit]).map ofBits) := puts_storeBit bit
  exact hputs.keepsCapped_bits

theorem keepsCapped_storeUint (w : Word) (n : Nat) : KeepsCapped (storeUint w n) := by
  refine (puts_storeUint w n).keepsCapped fun e he => ?_
  obtain ⟨-, he⟩ := Option.ite_none_right_eq_some.1 he
  obtain rfl := Option.some.inj he
  exact List.forall_mem_nil _

theorem keepsCapped_storeBits (bytes : List UInt8) (n : Nat) :
    KeepsCapped (storeBits bytes n) := by
  refine (puts_storeBits bytes n).keepsCapped fun e he => ?_
  obtain ⟨-, he⟩ := Option.ite_none_right_eq_some.1 he
  obtain rfl := Option.some.inj he
  exact List.forall_mem_nil _

theorem keepsCapped_storeAddress (a : Address) : KeepsCapped (storeAddress a) := by
  have hputs : Puts (storeAddress a) ((some a.encode).map ofBits) := puts_storeAddress a
  exact hputs.keepsCapped_bits

theorem keepsCapped_storeRef {c : Cell} (hc : c.Capped) : KeepsCapped (storeRef c) := by
  refine (puts_storeRef c).keepsCapped fun e he => ?_
  obtain rfl := Option.some.inj he
  simpa using hc

end Builder

/-! ## Texts and fields -/

namespace Cell

theorem length_of_mem_chunks (bytes : List UInt8) :
    ∀ chunk ∈ chunks bytes, chunk.length ≤ textChunkBytes := by
  induction bytes using chunks.induct with
  | case1 => simp [chunks]
  | case2 bytes h ih =>
    rw [chunks, dif_neg h]
    exact List.forall_mem_cons.2 ⟨List.length_take_le _ _, ih⟩

theorem capped_ofText (s : String) : (ofText s).Capped := by
  have hchain : ∀ parts : List (List UInt8), (∀ chunk ∈ parts, chunk.length ≤ textChunkBytes) →
      ∀ c, parts.foldr link none = some c → c.Capped := by
    intro parts
    induction parts with
    | nil => exact fun _ c hc => by cases hc
    | cons chunk parts ih =>
      intro hparts c hc
      obtain ⟨hchunk, hrest⟩ := List.forall_mem_cons.1 hparts
      obtain rfl := Option.some.inj hc
      refine .mk ?_ ?_ fun c hmem => ih hrest c (Option.mem_toList.1 hmem)
      · rw [Bits.length_ofBytes]
        simp only [textChunkBytes, maxCellBits] at hchunk ⊢
        omega
      · cases parts.foldr link none <;> simp [maxCellRefs]
  unfold ofText ofBytes
  cases h : (chunks s.toUTF8.toList).foldr link none with
  | none => exact Builder.capped_empty
  | some c => exact hchain _ (length_of_mem_chunks _) c h

end Cell

namespace Machine

open Write

theorem keepsCapped_storeInt (format : IntFormat) (v : Int) : KeepsCapped (storeInt format v) :=
  (puts_storeInt format v).keepsCapped_bits

/-- If it succeeds, the run makes a builder of a cell within its capacity. -/
def MakesCapped (x : Run Builder) : Prop := ∀ n, Ends x n (fun b _ => b.Capped) fun _ _ => True

theorem makesCapped_throw (e : RuntimeError) : MakesCapped (throw e) := fun _ => ends_throw trivial

theorem makesCapped_write {w : Write Unit} (h : w.KeepsCapped) {b : Builder} (hb : b.Capped) :
    MakesCapped (Run.write w b) := by
  intro n
  unfold Run.write
  rcases hrun : w.run b with ⟨e | ⟨⟩, b'⟩
  · exact ends_throw trivial
  · exact ends_pure ((h b hb).ok_of_run hrun)

theorem MakesCapped.bind {x : Run Builder} {f : Builder → Run Builder} (h : MakesCapped x)
    (hf : ∀ b, b.Capped → MakesCapped (f b)) : MakesCapped (x >>= f) :=
  fun n => (h n).bind fun b n' hb => hf b hb n'

/-- The programs of contained records make cells within their capacity. -/
def CallsCapped (call : String → Builder → Value → Run Builder) : Prop :=
  ∀ name b v, b.Capped → v.Capped → MakesCapped (call name b v)

section
variable {call : String → Builder → Value → Run Builder}

theorem makesCapped_boxed {child : Run Builder} {b : Builder} (h : MakesCapped child)
    (hb : b.Capped) :
    MakesCapped (child >>= fun child => Run.write (Builder.storeRef child.toCell) b) :=
  h.bind fun _ hchild => makesCapped_write (Builder.keepsCapped_storeRef hchild) hb

theorem makesCapped_storeOp (hcall : CallsCapped call) (field : String) (op : FieldOp) :
    ∀ (v : Value) (b : Builder), v.Capped → b.Capped →
      MakesCapped (storeOp call field op v b) := by
  induction op with
  | int format =>
    intro v b _ hb
    cases v with
    | int v => exact makesCapped_write (keepsCapped_storeInt format v) hb
    | _ => exact makesCapped_throw _
  | bool =>
    intro v b _ hb
    cases v with
    | bool x => exact makesCapped_write (Builder.keepsCapped_storeBit x) hb
    | _ => exact makesCapped_throw _
  | address =>
    intro v b _ hb
    cases v with
    | address a => exact makesCapped_write (Builder.keepsCapped_storeAddress a) hb
    | _ => exact makesCapped_throw _
  | bits n =>
    intro v b _ hb
    cases v with
    | bits bytes => exact makesCapped_write (Builder.keepsCapped_storeBits bytes n) hb
    | _ => exact makesCapped_throw _
  | ref kind =>
    intro v b hv hb
    cases kind <;> cases v <;>
      first
      | exact makesCapped_throw _
      | exact makesCapped_write (Builder.keepsCapped_storeRef hv.of_cell) hb
      | exact makesCapped_write (Builder.keepsCapped_storeRef (Cell.capped_ofText _)) hb
  | dict =>
    intro v b hv hb
    cases v with
    | null => exact makesCapped_write (Builder.keepsCapped_storeBit false) hb
    | cell c =>
      exact makesCapped_write ((Builder.keepsCapped_storeBit true).bind fun _ =>
        Builder.keepsCapped_storeRef hv.of_cell) hb
    | _ => exact makesCapped_throw _
  | record name boxed =>
    intro v b hv hb
    cases boxed with
    | false =>
      cases v with
      | record fields => exact hcall _ b _ hb hv
      | _ => exact makesCapped_throw _
    | true =>
      cases v with
      | record fields => exact makesCapped_boxed (hcall _ {} _ Builder.capped_empty hv) hb
      | _ => exact makesCapped_throw _
  | optional op boxed ih =>
    intro v b hv hb
    by_cases hnull : v = .null
    · subst hnull
      have hstore : storeOp call field (.optional op boxed) .null b =
          Run.write (Builder.storeBit false) b := by cases boxed <;> rfl
      rw [hstore]
      exact makesCapped_write (Builder.keepsCapped_storeBit false) hb
    · rw [storeOp_present hnull]
      refine (makesCapped_write (Builder.keepsCapped_storeBit true) hb).bind fun b hb => ?_
      cases boxed with
      | false => exact ih v b hv hb
      | true => exact makesCapped_boxed (ih v {} hv Builder.capped_empty) hb

/-! ## Programs -/

variable {p : Program} {v : Value} {builders : List Builder}

theorem ends_slot_capped (i : Instr) (h : ∀ b ∈ builders, b.Capped) (index n : Nat) :
    Ends (p.slot i builders index) n (fun b _ => b.Capped) fun _ _ => True := by
  unfold Program.slot
  cases hget : builders[index]? with
  | none => exact ends_throw trivial
  | some b => exact ends_pure (h b (List.mem_of_getElem? hget))

theorem capped_set (h : ∀ b ∈ builders, b.Capped) {b : Builder} (hb : b.Capped) (index : Nat) :
    ∀ b' ∈ builders.set index b, b'.Capped :=
  fun b' hb' => (List.mem_or_eq_of_mem_set hb').elim (h b') fun heq => heq ▸ hb

/-- Every instruction leaves all builders within their capacity. -/
theorem ends_storeInstr_capped (hcall : CallsCapped call) (hv : v.Capped) (i : Instr)
    (h : ∀ b ∈ builders, b.Capped) (n : Nat) :
    Ends (storeInstr call p v builders i) n (fun builders' _ => ∀ b ∈ builders', b.Capped)
      fun _ _ => True := by
  cases i with
  | beginCell cell =>
    refine ends_pure fun b hb => ?_
    rcases List.mem_append.1 hb with hb | hb
    · exact h b hb
    · rw [List.eq_of_mem_replicate hb]
      exact Builder.capped_empty
  | storeHeader cell header =>
    refine (ends_slot_capped _ h cell n).bind fun b n hb => ?_
    refine (makesCapped_write (Builder.keepsCapped_storeUint _ _) hb n).bind fun b n hb => ?_
    exact ends_pure (capped_set h hb cell)
  | store cell field op =>
    have hvalue := (ends_fieldValue p v field n).mono (fun _ _ h => h) fun _ _ _ => trivial
    refine hvalue.bind ?_
    rintro x n ⟨rfl, hx⟩
    have hcapped : x.Capped := by
      cases v with
      | record fields => exact hv.of_lookup hx
      | _ => cases hx
    refine (ends_slot_capped _ h cell _).bind fun b n hb => ?_
    refine (makesCapped_storeOp hcall field op x b hcapped hb n).bind fun b n hb => ?_
    exact ends_pure (capped_set h hb cell)
  | endCell parent child =>
    refine (ends_slot_capped _ h child n).bind fun done n hdone => ?_
    have hset := capped_set h Builder.capped_empty child
    refine (ends_slot_capped _ hset parent n).bind fun b n hb => ?_
    refine (makesCapped_write (Builder.keepsCapped_storeRef hdone) hb n).bind fun b n hb => ?_
    exact ends_pure (capped_set hset hb parent)
  | _ => exact ends_throw trivial

theorem leads_capped (hcall : CallsCapped call) (hv : v.Capped) (limits : Limits)
    (is : List Instr) :
    ∀ builders : List Builder, (∀ b ∈ builders, b.Capped) →
      Leads call limits p v is builders fun builders' => ∀ b ∈ builders', b.Capped := by
  induction is with
  | nil => exact fun builders h n => ends_pure h
  | cons i is ih =>
    intro builders h
    rw [← List.singleton_append]
    exact (leads_one (ends_storeInstr_capped hcall hv i h)).append ih

/-- However deep programs may be nested, they make cells within their capacity. -/
theorem callsCapped_storeProgram (set : ProgramSet) (limits : Limits) (depth : Nat) :
    CallsCapped (storeProgram set limits depth) := by
  induction depth with
  | zero =>
    intro name b v _ _ n
    cases hlookup : set.lookup false name with
    | error e => exact .of_error (run_storeProgram_error hlookup b v n) trivial
    | ok p => exact .of_error (run_storeProgram_zero hlookup b v n) trivial
  | succ depth ih =>
    intro name b v hb hv n
    cases hlookup : set.lookup false name with
    | error e => exact .of_error (run_storeProgram_error hlookup b v n) trivial
    | ok p =>
      rw [Ends, run_storeProgram hlookup]
      refine (leads_capped ih hv limits p.instrs [b] (by simpa using hb) n).bind
        fun builders n h => ends_pure ?_
      cases builders with
      | nil => exact Builder.capped_empty
      | cons b builders => exact h b List.mem_cons_self

end

/-- What is written behind a few bits is within its capacity if the cells of the value are. -/
theorem capped_storeAfter {m : Machine} {bits : List Bool} {name : String} {v : Value} {c : Cell}
    (hbits : bits.length ≤ maxCellBits) (hv : v.Capped) (hc : m.storeAfter bits name v = .ok c) :
    c.Capped := by
  rw [storeAfter_eq] at hc
  obtain ⟨b, hb, rfl⟩ := map_eq_ok hc
  have hstart : ({ bits } : Builder).Capped := .mk hbits (Nat.zero_le _) (by simp)
  exact (callsCapped_storeProgram m.programs m.limits _ name _ v hstart hv _).ok_of_result hb

end Machine
end CellPack
