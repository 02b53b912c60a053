import Mathlib
import CellPack.Proofs.Linked
/-!
# Rigid fields

The operation of a field is rigid if it takes the same room for every value: its size is fixed, or it
is a record in place whose fields are all rigid. Whatever a slice holds, reading such a field takes
exactly the size of its placement (`Machine.takes_loadOp`).
-/

namespace CellPack

open Step

/-! ## Operations -/

/-- The size of the operation, if it is the same for all values and all layouts. -/
def FieldOp.fixedSize? : FieldOp → Option CellSize
  | int (.int n) | int (.uint n) | bits n => some ⟨n, 0⟩
  | bool => some ⟨1, 0⟩
  | address => some ⟨addressBits, 0⟩
  | ref _ | record _ true => some ⟨0, 1⟩
  | _ => none

/-- The operation has a fixed size, or it is a record in place whose fields are all rigid. -/
inductive FieldOp.Rigid (layout : String → Option Layout) : FieldOp → Prop where
  | fixed {op : FieldOp} {size : CellSize} (h : op.fixedSize? = some size) : Rigid layout op
  | inline {name : String} {l : Layout} (hl : layout name = some l)
    (h : ∀ pl ∈ l.placements, Rigid layout pl.op) : Rigid layout (.record name false)

theorem FieldType.fixedSize_of_lower {type : FieldType} {op : FieldOp} {size payload fixed : CellSize}
    (h : type.lower = .fixed op size payload) (hfixed : op.fixedSize? = some fixed) :
    size = fixed := by
  cases type with
  | int format =>
    cases h
    cases format <;> cases hfixed <;> rfl
  | optional inner =>
    -- neither an optional value nor a map has a fixed size
    obtain ⟨op', size', payload', heq, hop⟩ := inner.lower.optional_eq
    rw [lower, heq] at h
    cases h
    rcases hop with rfl | ⟨_, _, rfl⟩ <;> cases hfixed
  | map key value =>
    cases h
    cases hfixed
  | record name => cases h
  | _ =>
    cases h
    cases hfixed
    rfl

/-- A field of a fixed size is placed with this size. -/
theorem Costs.size_eq {nested : String → Layout → Prop} {current : LayoutCell} {type : FieldType}
    {op : FieldOp} {size fixed : CellSize} (h : Costs nested current type op size)
    (hfixed : op.fixedSize? = some fixed) : size = fixed := by
  cases h with
  | fixed h _ => exact FieldType.fixedSize_of_lower h hfixed
  | @nested name l h hl =>
    obtain ⟨boxed, heq, -⟩ := nestedOp_eq current name l
    rw [heq] at hfixed ⊢
    cases boxed with
    | false => cases hfixed
    | true =>
      cases hfixed
      rfl

/-! ## Reading steps -/

namespace Load

variable {α β : Type} {l : Load α} {a b : CellSize}

/-- If it succeeds, the step takes exactly so many bits and references. -/
def Takes (l : Load α) (size : CellSize) : Prop :=
  ∀ s : Slice, Ends l s (fun _ s' => s.Leaves size s') fun _ _ => True

theorem takes_pure (x : α) : Takes (pure x) .zero := fun s => ends_pure s.leaves_zero

theorem takes_throw (e : CellError) : Takes (throw e : Load α) a := fun _ => trivial

theorem Takes.bind {f : α → Load β} (h : Takes l a) (hf : ∀ x, Takes (f x) b) :
    Takes (l >>= f) ⟨a.bits + b.bits, a.refs + b.refs⟩ :=
  fun s => (h s).bind fun x s' hs' => (hf x s').mono (fun _ _ => hs'.trans) fun _ _ h => h

theorem Takes.map (h : Takes l a) (f : α → β) : Takes (f <$> l) a := by
  have := h.bind fun x => takes_pure (f x)
  rwa [bind_pure_comp] at this

theorem takes_guard {c : Prop} [Decidable c] {e : CellError} {k : Unit → Load α}
    (h : Takes (k ()) a) : Takes (if c then throw e >>= k else k ()) a := by
  by_cases hc : c
  · rw [if_pos hc]
    exact fun _ => trivial
  · rw [if_neg hc]
    exact h

end Load

namespace Slice

open Load

theorem takes_takeBits (n : Nat) : Takes (takeBits n) ⟨n, 0⟩ := by
  intro s
  by_cases h : n > s.bits.length
  · exact .of_error (by rw [run_takeBits, if_pos h]) trivial
  · have hrun : (takeBits n).run s = (.ok (s.bits.take n), s.advance ⟨n, 0⟩) := by
      rw [run_takeBits, if_neg h]
      rfl
    exact .of_ok hrun ⟨not_lt.1 h, Nat.zero_le _, rfl⟩

theorem takes_loadBit : Takes loadBit ⟨1, 0⟩ := (takes_takeBits 1).bind fun _ => takes_pure _

theorem takes_loadUint (n : Nat) : Takes (loadUint n) ⟨n, 0⟩ := by
  refine (takes_takeBits n).bind (b := .zero) fun raw => takes_guard ?_
  exact takes_pure _

theorem takes_loadInt (n : Nat) : Takes (loadInt n) ⟨n, 0⟩ := by
  refine (takes_takeBits n).bind (b := .zero) fun raw => takes_guard ?_
  exact takes_pure _

theorem takes_loadBits (n : Nat) : Takes (loadBits n) ⟨n, 0⟩ :=
  (takes_takeBits n).bind fun _ => takes_pure _

theorem takes_loadRef : Takes loadRef ⟨0, 1⟩ := by
  rintro ⟨bits, refs⟩
  cases refs with
  | nil => exact trivial
  | cons c refs =>
    have hone : (⟨bits, c :: refs⟩ : Slice).Leaves ⟨0, 1⟩ ⟨bits, refs⟩ :=
      ⟨Nat.zero_le _, Nat.le_add_left _ _, rfl⟩
    exact hone

theorem takes_loadAddress : Takes loadAddress ⟨addressBits, 0⟩ := by
  refine (takes_loadUint 2).bind (b := ⟨265, 0⟩) fun tag => takes_guard ?_
  refine takes_loadBit.bind (b := ⟨264, 0⟩) fun bit => takes_guard ?_
  refine (takes_loadInt 8).bind (b := ⟨256, 0⟩) fun workchain => ?_
  refine (takes_loadBits 256).bind (b := .zero) fun hash => ?_
  split
  · exact takes_pure _
  · exact takes_throw _

end Slice

namespace Machine

open Load

theorem takes_loadText : Takes loadText ⟨0, 1⟩ := by
  refine Slice.takes_loadRef.bind (b := .zero) fun c => ?_
  split
  · exact takes_pure _
  · exact takes_throw _

end Machine

/-- If it succeeds, the run takes exactly so many bits and references from its slice. -/
def Run.Takes {α : Type} (l : Slice → Run (α × Slice)) (size : CellSize) : Prop :=
  ∀ s n, Ends (l s) n (fun r _ => s.Leaves size r.2) fun _ _ => True

theorem Run.takes_read {α : Type} {l : Load α} {size : CellSize} (h : Load.Takes l size) :
    Run.Takes (read l) size := by
  intro s n
  unfold read
  rcases hl : l.run s with ⟨e | a, s'⟩
  · exact ends_throw trivial
  · exact ends_pure ((h s).ok_of_run hl)

/-! ## Operations of a fixed size -/

namespace Machine

variable {load : String → Slice → Run (Value × Slice)} {set : ProgramSet} {limits : Limits}
  {p : Program}

theorem takes_fixed {op : FieldOp} {size : CellSize} (h : op.fixedSize? = some size) :
    Run.Takes (loadOp load op) size := by
  cases op with
  | int format =>
    cases format <;> cases h
    · exact Run.takes_read (((Slice.takes_takeBits _).map Bits.toInt).map Value.int)
    · exact Run.takes_read ((((Slice.takes_takeBits _).map Bits.toNat).map Int.ofNat).map Value.int)
  | bool =>
    cases h
    exact Run.takes_read (Slice.takes_loadBit.map Value.bool)
  | address =>
    cases h
    exact Run.takes_read (Slice.takes_loadAddress.map Value.address)
  | bits n =>
    cases h
    exact Run.takes_read ((Slice.takes_loadBits n).map Value.bits)
  | ref kind =>
    cases h
    cases kind with
    | string => exact Run.takes_read (takes_loadText.map Value.string)
    | _ => exact Run.takes_read (Slice.takes_loadRef.map Value.cell)
  | record name boxed =>
    cases boxed <;> cases h
    -- the record is in a cell of its own
    intro s n
    refine (Run.takes_read Slice.takes_loadRef s n).bind fun r n' hr => ?_
    exact ends_bind_any fun r' n'' => ends_pure hr
  | _ => cases h

/-! ## Instructions of a parser -/

/-- The instructions take the only slice from one place of a cell to another. -/
def Moves (load : String → Slice → Run (Value × Slice)) (limits : Limits) (p : Program)
    (is : List Instr) (start stop : CellSize) : Prop :=
  ∀ (root s : Slice) (loaded : List (String × Value)) (n : Nat), root.Leaves start s →
    Ends (loadAll load limits p is ⟨[s], loaded⟩) n
      (fun r _ => ∃ s', r.slices = [s'] ∧ root.Leaves stop s') fun _ _ => True

theorem moves_nil (start : CellSize) : Moves load limits p [] start start :=
  fun _ s _ _ hs => ends_pure ⟨s, rfl, hs⟩

theorem Moves.append {is is' : List Instr} {start mid stop : CellSize}
    (h : Moves load limits p is start mid) (h' : Moves load limits p is' mid stop) :
    Moves load limits p (is ++ is') start stop := by
  intro root s loaded n hs
  rw [loadAll_append]
  refine (h root s loaded n hs).bind ?_
  rintro ⟨slices, loaded'⟩ n' ⟨s', rfl, hs'⟩
  exact h' root s' loaded' n' hs'

theorem moves_check (header : Option UInt32) :
    Moves load limits p (header.map (Instr.checkHeader 0)).toList .zero
      ⟨if header.isSome then headerBits else 0, 0⟩ := by
  cases header with
  | none => exact moves_nil _
  | some header =>
    intro root s loaded n hs
    refine ends_loadAll_counted (fun _ _ _ => trivial) fun n' => ?_
    refine ends_bind_of_run (run_slot rfl n') ?_
    refine (Run.takes_read (Slice.takes_loadUint headerBits) s n').bind fun r n'' hr => ?_
    simp only
    split
    · exact ends_throw trivial
    · have hmoved := hs.trans hr
      simp only [CellSize.zero, Nat.zero_add] at hmoved
      exact ends_pure ⟨r.2, rfl, hmoved⟩

theorem moves_load {pl : Placement} {start : CellSize} (h : Run.Takes (loadOp load pl.op) pl.size) :
    Moves load limits p [.load 0 pl.field pl.op] start
      ⟨start.bits + pl.bits, start.refs + pl.refs⟩ := by
  intro root s loaded n hs
  refine ends_loadAll_counted (fun _ _ _ => trivial) fun n' => ?_
  refine ends_bind_of_run (run_slot rfl n') ((h s n').bind fun r n'' hr => ?_)
  exact ends_pure ⟨r.2, rfl, hs.trans hr⟩

/-- Placements that follow each other lead from the start of the first to the end of the last. -/
theorem moves_placements {pls : List Placement} {start stop : CellSize}
    (hplaces : Contiguous start pls stop)
    (h : ∀ pl ∈ pls, Run.Takes (loadOp load pl.op) pl.size) :
    Moves load limits p (pls.map fun pl => .load 0 pl.field pl.op) start stop := by
  induction pls generalizing start with
  | nil =>
    obtain rfl : start = stop := hplaces
    exact moves_nil start
  | cons pl pls ih =>
    obtain ⟨-, -, hrest⟩ := hplaces
    obtain ⟨hpl, hpls⟩ := List.forall_mem_cons.1 h
    exact (moves_load hpl).append (ih hrest hpls)

/-! ## Records in place -/

/-- The record has the parser of its layout, in which only a header has a place of its own. -/
structure Inlined (set : ProgramSet) (nested : String → Layout → Prop) (name : String)
    (l : Layout) : Prop where
  parser : set.lookup true (ProcName.load name) = .ok (l.parser .withHeader)
  omitted : l.omitted = []
  reserved : l.reserved = if l.header.isSome then headerBits else 0
  fits : ∃ c rest, l.cells = c :: rest ∧ c.Fits ⟨l.reserved, 0⟩
  placed : ∀ pl ∈ l.placements, ∃ current type, Costs nested current type pl.op pl.size

variable {nested : String → Layout → Prop} {name : String} {l : Layout} {c : LayoutCell}

/-- A record of one cell takes what is used of the cell if its fields take their sizes. -/
theorem Inlined.takes (hl : Inlined set nested name l) (hcells : l.cells = [c])
    (h : ∀ depth, ∀ pl ∈ l.placements, Run.Takes (loadOp (loadRecord set limits depth) pl.op) pl.size)
    (depth : Nat) : Run.Takes (loadRecord set limits depth (ProcName.load name)) c.used := by
  intro s n
  cases depth with
  | zero => exact .of_error (run_loadRecord_zero hl.parser s n) trivial
  | succ depth =>
    obtain ⟨first, rest, hfirst, hfits⟩ := hl.fits
    obtain rfl : first = c := (List.cons.inj (hfirst.symm.trans hcells)).1
    have hplacements : l.placements = first.placements := by
      rw [Layout.placements, hcells]
      exact List.append_nil _
    rw [hplacements] at h
    have hinstrs : (l.parser .withHeader).instrs = (l.header.map (Instr.checkHeader 0)).toList
        ++ first.placements.map fun pl => .load 0 pl.field pl.op := by
      rw [l.instrs_parser hl.omitted, hcells]
      rfl
    have hmoves : Moves (loadRecord set limits depth) limits (l.parser .withHeader)
        (l.parser .withHeader).instrs .zero first.used := by
      rw [hinstrs]
      refine (moves_check l.header).append (moves_placements ?_ (h depth))
      rw [← hl.reserved]
      exact hfits.contiguous
    rw [Ends, run_loadRecord_succ hl.parser]
    refine (hmoves s s [] n s.leaves_zero).bind ?_
    rintro ⟨slices, loaded⟩ n' ⟨s', rfl, hs'⟩
    unfold finish
    cases toRecord (l.parser .withHeader) ⟨[s'], loaded⟩ with
    | error e => exact ends_throw trivial
    | ok v => exact ends_pure hs'

/-- A rigid field takes exactly the size that it is placed with. -/
theorem takes_loadOp {layout : String → Option Layout}
    (hnested : ∀ name l, nested name l → layout name = some l ∧ Inlined set nested name l)
    {op : FieldOp} (h : op.Rigid layout) :
    ∀ {current : LayoutCell} {type : FieldType} {size : CellSize},
      Costs nested current type op size →
        ∀ depth, Run.Takes (loadOp (loadRecord set limits depth) op) size := by
  induction h with
  | fixed h =>
    intro current type size hcost depth
    rw [hcost.size_eq h]
    exact takes_fixed h
  | @inline name l hl _ ih =>
    intro current type size hcost depth
    have hcells : ∀ l, nested name l → l.cells ≠ [] := by
      intro l hl
      obtain ⟨c, rest, hcells, -⟩ := (hnested name l hl).2.fits
      rw [hcells]
      exact List.cons_ne_nil c rest
    obtain ⟨l', c, hl', hone, -, rfl⟩ := hcost.inline hcells
    obtain ⟨hlayout, hinlined⟩ := hnested name l' hl'
    obtain rfl : l = l' := Option.some.inj (hl.symm.trans hlayout)
    refine hinlined.takes hone (fun depth pl hpl => ?_) depth
    obtain ⟨current, type, hcost⟩ := hinlined.placed pl hpl
    exact ih pl hpl hcost depth

end Machine
end CellPack
