import Mathlib
import CellPack.Machine.Run
import CellPack.Proofs.Bits
import CellPack.Proofs.Steps
/-!
# Writing and reading cells

A writing step appends one fixed piece to whatever the builder holds, or refuses its value. The
matching reading step takes that piece from the front of a slice, gives the value back and leaves
what is behind it.
-/

namespace CellPack

/-! ## Pieces -/

namespace Builder

attribute [ext] Builder

/-- What one builder holds, then what another one holds. -/
instance : Append Builder := ⟨fun a b => ⟨a.bits ++ b.bits, a.refs ++ b.refs⟩⟩

/-- A slice with what a builder holds in front. -/
def onto (e : Builder) (s : Slice) : Slice := ⟨e.bits ++ s.bits, e.refs ++ s.refs⟩

/-- Bits alone. -/
def ofBits (bits : List Bool) : Builder := ⟨bits, []⟩

/-- One reference alone. -/
def ofRef (c : Cell) : Builder := ⟨[], [c]⟩

@[simp] theorem bits_append (a b : Builder) : (a ++ b).bits = a.bits ++ b.bits := rfl
@[simp] theorem refs_append (a b : Builder) : (a ++ b).refs = a.refs ++ b.refs := rfl
@[simp] theorem bits_ofBits (bits : List Bool) : (ofBits bits).bits = bits := rfl
@[simp] theorem refs_ofBits (bits : List Bool) : (ofBits bits).refs = [] := rfl
@[simp] theorem bits_ofRef (c : Cell) : (ofRef c).bits = [] := rfl
@[simp] theorem refs_ofRef (c : Cell) : (ofRef c).refs = [c] := rfl

@[simp] theorem append_empty (a : Builder) : a ++ ({} : Builder) = a := by
  ext1 <;> simp

@[simp] theorem empty_append (a : Builder) : ({} : Builder) ++ a = a := rfl

theorem ofBits_append (xs ys : List Bool) : ofBits (xs ++ ys) = ofBits xs ++ ofBits ys := rfl

theorem append_assoc (a b c : Builder) : a ++ b ++ c = a ++ (b ++ c) := by
  ext1 <;> simp

@[simp] theorem onto_append (a b : Builder) (s : Slice) : (a ++ b).onto s = a.onto (b.onto s) := by
  simp [onto]

@[simp] theorem empty_onto (s : Slice) : ({} : Builder).onto s = s := rfl

theorem toSlice_toCell (e : Builder) : e.toCell.toSlice = e.onto ⟨[], []⟩ := by
  simp [toCell, Cell.toSlice, Cell.bits, Cell.refs, onto]

/-- Whether a piece has room behind what the builder holds. -/
def HasRoom (b e : Builder) : Prop :=
  b.bits.length + e.bits.length ≤ maxCellBits ∧ b.refs.length + e.refs.length ≤ maxCellRefs

end Builder

/-- The step appends the piece where it has room; without a piece it refuses its value. -/
def Write.Appends (w : Write Unit) (piece : Option Builder) : Prop :=
  ∀ b : Builder, match piece with
    | some e => b.HasRoom e → w.run b = (.ok (), b ++ e)
    | none => ∃ n, w.run b = (.error (.valueOutOfRange n), b)

/-- Why a piece cannot stand behind what the builder holds; the bits are looked at first. -/
def Builder.overflow (b e : Builder) : CellError :=
  if b.bits.length + e.bits.length > maxCellBits then
    .bitOverflow e.bits.length (maxCellBits - b.bits.length)
  else .refOverflow

/-- The step appends the piece, or leaves a builder that has no room for all of it as it was. -/
structure Write.Puts (w : Write Unit) (piece : Option Builder) : Prop where
  appends : w.Appends piece
  full : ∀ {b e : Builder}, piece = some e → b.HasRoom {} → ¬b.HasRoom e →
    w.run b = (.error (b.overflow e), b)

/-- The step takes the piece from the front of any slice and gives the value. -/
def Load.Reads {α : Type} (l : Load α) (piece : Builder) (a : α) : Prop :=
  ∀ rest : Slice, l.run (piece.onto rest) = (.ok a, rest)

/-- Whether an error says that the data of a slice are not what was expected. -/
def CellError.isMalformed : CellError → Bool
  | underflow _ _ | refUnderflow | invalidAddress | invalidUtf8 => true
  | bitOverflow _ _ | refOverflow | valueOutOfRange _ => false

/-- The step gives only values as stated, and fails only on malformed data. -/
def Load.Yields {α : Type} (l : Load α) (P : α → Prop) : Prop :=
  ∀ s : Slice, Step.Ends l s (fun a _ => P a) (fun e _ => e.isMalformed)

namespace Load

variable {α β : Type} {l : Load α} {e e' : Builder} {a : α}

theorem Reads.bind {f : α → Load β} {b : β} (h : Reads l e a) (hf : Reads (f a) e' b) :
    Reads (l >>= f) (e ++ e') b := by
  intro rest
  rw [Builder.onto_append, Step.run_bind_ok (h _)]
  exact hf rest

theorem reads_pure (a : α) : Reads (pure a) {} a := fun _ => rfl

theorem Reads.map {b : β} (h : Reads l e a) (f : α → β) (hb : f a = b) : Reads (f <$> l) e b := by
  have := h.bind (f := fun a => pure (f a)) (reads_pure (f a))
  rwa [Builder.append_empty, bind_pure_comp, hb] at this

theorem Yields.bind {P : α → Prop} {Q : β → Prop} {f : α → Load β} (h : Yields l P)
    (hf : ∀ a, P a → Yields (f a) Q) : Yields (l >>= f) Q :=
  fun s => (h s).bind fun a s' ha => hf a ha s'

theorem yields_pure {P : α → Prop} (h : P a) : Yields (pure a) P := fun _ => h

theorem yields_throw {P : α → Prop} {err : CellError} (h : err.isMalformed = true) :
    Yields (throw err : Load α) P := fun _ => h

/-- A refusal beforehand that does not happen. -/
theorem reads_guard {c : Prop} [Decidable c] {x : CellError} {k : Unit → Load α} (hc : ¬c)
    (h : Reads (k ()) e a) : Reads (if c then throw x >>= k else k ()) e a := by
  rwa [if_neg hc]

theorem yields_guard {c : Prop} [Decidable c] {x : CellError} {k : Unit → Load α} {P : α → Prop}
    (hx : x.isMalformed = true) (h : ¬c → Yields (k ()) P) :
    Yields (if c then throw x >>= k else k ()) P := by
  by_cases hc : c
  · rw [if_pos hc]
    exact fun _ => hx
  · rw [if_neg hc]
    exact h hc

theorem Yields.map {P : α → Prop} {Q : β → Prop} (h : Yields l P) {f : α → β}
    (hf : ∀ a, P a → Q (f a)) : Yields (f <$> l) Q := by
  rw [← bind_pure_comp]
  exact h.bind fun a ha => yields_pure (hf a ha)

theorem Yields.mono {P Q : α → Prop} (h : Yields l P) (hf : ∀ a, P a → Q a) : Yields l Q :=
  fun s => (h s).mono (fun a _ ha => hf a ha) fun _ _ he => he

end Load

/-! ## Bits and references -/

namespace Builder

theorem run_ensureBits (n : Nat) (b : Builder) :
    (ensureBits n).run b =
      if n > maxCellBits - b.bits.length then
        (.error (.bitOverflow n (maxCellBits - b.bits.length)), b)
      else (.ok (), b) := by
  change (if n > maxCellBits - b.bits.length then throw _ else pure () : Write Unit).run b = _
  split <;> rfl

theorem run_ensureBits_of_room {n : Nat} {b : Builder} (h : b.bits.length + n ≤ maxCellBits) :
    (ensureBits n).run b = (.ok (), b) := by
  rw [run_ensureBits, if_neg (by omega)]

theorem run_push (bits : List Bool) (b : Builder) :
    (push bits).run b = (.ok (), b ++ ofBits bits) := by
  have : b ++ ofBits bits = { b with bits := b.bits ++ bits } := by ext1 <;> simp
  rw [this]
  rfl

theorem appends_push (bits : List Bool) : Write.Appends (push bits) (some (ofBits bits)) :=
  fun b _ => run_push bits b

theorem appends_nothing : Write.Appends (pure ()) (some (ofBits [])) := by
  intro b _
  have : b ++ ofBits [] = b := append_empty b
  rw [this]
  rfl

theorem appends_seq {w w' : Write Unit} {e e' : Builder} (h : Write.Appends w (some e))
    (h' : Write.Appends w' (some e')) : Write.Appends (do w; w') (some (e ++ e')) := by
  rintro b ⟨hb, hr⟩
  simp only [bits_append, refs_append, List.length_append] at hb hr
  rw [Step.run_bind_ok (h b ⟨by omega, by omega⟩), ← append_assoc]
  exact h' (b ++ e) ⟨by simpa using by omega, by simpa using by omega⟩

theorem puts_throw (n : Nat) : Write.Puts (throw (.valueOutOfRange n)) none :=
  ⟨fun _ => ⟨n, rfl⟩, nofun⟩

/-- Making sure of the room for all bits of a piece before the first one is written. -/
theorem puts_ensured {n : Nat} {w : Write Unit} {bits : List Bool} (hn : bits.length = n)
    (h : Write.Appends w (some (ofBits bits))) :
    Write.Puts (do ensureBits n; w) (some (ofBits bits)) := by
  subst hn
  constructor
  · intro b hb
    have hroom : b.bits.length + bits.length ≤ maxCellBits := hb.1
    rw [Step.run_bind_ok (run_ensureBits_of_room hroom)]
    exact h b hb
  · rintro b _ ⟨⟩ ⟨hb, hrefs⟩ hfull
    change b.bits.length + 0 ≤ maxCellBits at hb
    have hbits : b.bits.length + bits.length > maxCellBits := by
      by_contra hroom
      exact hfull ⟨Nat.not_lt.1 hroom, hrefs⟩
    have hrun : (ensureBits bits.length).run b =
        (.error (.bitOverflow bits.length (maxCellBits - b.bits.length)), b) := by
      rw [run_ensureBits, if_pos (by omega)]
    rw [Step.run_bind_error hrun, overflow, bits_ofBits, if_pos hbits]

theorem puts_pushed {n : Nat} {bits : List Bool} (hn : bits.length = n) :
    Write.Puts (do ensureBits n; push bits) (some (ofBits bits)) :=
  puts_ensured hn (appends_push bits)

/-- A value refused beforehand has no piece. -/
theorem puts_guard {c : Prop} [Decidable c] {n : Nat} {w : Unit → Write Unit}
    {piece : Option Builder} (hc : c → piece = none) (h : ¬c → Write.Puts (w ()) piece) :
    Write.Puts (if c then throw (.valueOutOfRange n) >>= w else w ()) piece := by
  by_cases hcase : c
  · rw [if_pos hcase, hc hcase]
    exact ⟨fun _ => ⟨n, rfl⟩, nofun⟩
  · rw [if_neg hcase]
    exact h hcase

theorem puts_storeBit (bit : Bool) : Write.Puts (storeBit bit) (some (ofBits [bit])) :=
  puts_pushed rfl

theorem puts_storeRef (c : Cell) : Write.Puts (storeRef c) (some (ofRef c)) := by
  have hrun (b : Builder) : (storeRef c).run b =
      (if b.refs.length ≥ maxCellRefs then throw .refOverflow
        else modify fun b => { b with refs := b.refs ++ [c] } : Write Unit).run b := rfl
  constructor
  · rintro b ⟨-, hrefs⟩
    have he : b ++ ofRef c = { b with refs := b.refs ++ [c] } := by ext1 <;> simp
    rw [refs_ofRef, List.length_singleton] at hrefs
    rw [hrun, if_neg (by omega), he]
    rfl
  · rintro b _ ⟨⟩ ⟨hbits, -⟩ hfull
    have hrefs : b.refs.length ≥ maxCellRefs := by
      by_contra hroom
      exact hfull ⟨hbits, by rw [refs_ofRef, List.length_singleton]; omega⟩
    have hfits : ¬b.bits.length + (ofRef c).bits.length > maxCellBits := Nat.not_lt.2 hbits
    rw [hrun, if_pos hrefs, overflow, if_neg hfits]
    rfl

end Builder

namespace Slice

theorem run_takeBits (n : Nat) (s : Slice) :
    (takeBits n).run s =
      if n > s.bits.length then (.error (.underflow n s.bits.length), s)
      else (.ok (s.bits.take n), { s with bits := s.bits.drop n }) := by
  change (if n > s.bits.length then throw _ else do set _; return _ : Load _).run s = _
  split <;> rfl

theorem reads_takeBits {n : Nat} {bits : List Bool} (h : bits.length = n) :
    Load.Reads (takeBits n) (Builder.ofBits bits) bits := by
  subst h
  intro rest
  simp [run_takeBits, Builder.onto]

theorem yields_takeBits (n : Nat) : Load.Yields (takeBits n) (fun bits => bits.length = n) := by
  intro s
  by_cases h : n > s.bits.length
  · exact .of_error (by rw [run_takeBits, if_pos h]) rfl
  · refine .of_ok (by rw [run_takeBits, if_neg h]) ?_
    change (s.bits.take n).length = n
    rw [List.length_take]
    omega

theorem reads_loadBit (bit : Bool) : Load.Reads loadBit (Builder.ofBits [bit]) bit := by
  have := (reads_takeBits (rfl : [bit].length = 1)).map (fun bits => bits.headD false) rfl
  rwa [← bind_pure_comp] at this

theorem yields_loadBit : Load.Yields loadBit (fun _ => True) :=
  (yields_takeBits 1).bind fun _ _ => Load.yields_pure trivial

theorem reads_loadRef (c : Cell) : Load.Reads loadRef (Builder.ofRef c) c := fun _ => rfl

theorem yields_loadRef : Load.Yields loadRef (fun _ => True) := by
  rintro ⟨bits, refs⟩
  cases refs with
  | nil => exact (rfl : CellError.refUnderflow.isMalformed = true)
  | cons c refs => exact trivial

/-! ## Positions -/

/-- The slice behind its first bits and references, as many as the size says. -/
def advance (s : Slice) (size : CellSize) : Slice :=
  ⟨s.bits.drop size.bits, s.refs.drop size.refs⟩

/-- The slice has so many bits and references in front, and this is left behind them. -/
def Leaves (root : Slice) (size : CellSize) (s : Slice) : Prop :=
  size.bits ≤ root.bits.length ∧ size.refs ≤ root.refs.length ∧ s = root.advance size

theorem leaves_zero (s : Slice) : s.Leaves .zero s := ⟨Nat.zero_le _, Nat.zero_le _, rfl⟩

theorem Leaves.trans {root s t : Slice} {a b : CellSize} (h : root.Leaves a s) (h' : s.Leaves b t) :
    root.Leaves ⟨a.bits + b.bits, a.refs + b.refs⟩ t := by
  obtain ⟨hbits, hrefs, rfl⟩ := h
  obtain ⟨hbits', hrefs', rfl⟩ := h'
  simp only [advance, List.length_drop] at hbits' hrefs'
  refine ⟨by simp only; omega, by simp only; omega, ?_⟩
  simp only [advance, List.drop_drop]

end Slice

namespace Builder

theorem advance_onto {e : Builder} {size : CellSize} (h : e.used = size) (s : Slice) :
    (e.onto s).advance size = s := by
  subst h
  simp [onto, used, Slice.advance]

theorem leaves_onto (e : Builder) (s : Slice) : (e.onto s).Leaves e.used s := by
  refine ⟨?_, ?_, (advance_onto rfl s).symm⟩ <;> simp [onto, used]

/-- The cell of two builders, behind what the first one holds. -/
theorem leaves_append (b e : Builder) : (b ++ e).toCell.toSlice.Leaves b.used e.toCell.toSlice := by
  rw [toSlice_toCell, toSlice_toCell, onto_append]
  exact leaves_onto b _

theorem advance_append (b e : Builder) :
    (b ++ e).toCell.toSlice.advance b.used = e.toCell.toSlice := (leaves_append b e).2.2.symm

/-- How much stands in front is determined by what is left. -/
theorem used_eq_of_leaves {e : Builder} {size : CellSize} {s : Slice}
    (h : (e.onto s).Leaves size s) : e.used = size := by
  obtain ⟨hbits, hrefs, hs⟩ := h
  have hbits' := congrArg (fun s => s.bits.length) hs
  have hrefs' := congrArg (fun s => s.refs.length) hs
  simp only [Slice.advance, onto, List.length_drop, List.length_append] at hbits hrefs hbits' hrefs'
  exact congrArg₂ CellSize.mk (by omega) (by omega)

end Builder
end CellPack
