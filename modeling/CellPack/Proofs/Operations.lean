import Mathlib
import CellPack.Proofs.Placing
/-!
# Operations for field types

A placement has an operation for the type of its field (`Lowers`), and what the operation can write
is within the size of the placement, in cells that it starts itself within a cell (`Within`).
-/

namespace CellPack

/-! ## Types -/

namespace FieldType

/-- The operation writes and reads values of the type. A map in an optional value stays a map. -/
inductive Lowers : FieldType → FieldOp → Prop where
  | int (format : IntFormat) : Lowers (.int format) (.int format)
  | bool : Lowers .bool .bool
  | address : Lowers .address .address
  | bits (n : Nat) : Lowers (.bits n) (.bits n)
  | cell : Lowers .cell (.ref .cell)
  | slice : Lowers .slice (.ref .slice)
  | builder : Lowers .builder (.ref .builder)
  | string : Lowers .string (.ref .string)
  | map (key value : FieldType) : Lowers (.map key value) .dict
  | record (name : String) (boxed : Bool) : Lowers (.record name) (.record name boxed)
  | optionalMap {type : FieldType} (h : Lowers type .dict) : Lowers (.optional type) .dict
  | optional {type : FieldType} {op : FieldOp} (boxed : Bool) (h : Lowers type op)
    (hop : op ≠ .dict) : Lowers (.optional type) (.optional op boxed)

/-- The formats of all integers in the type. -/
def formats : FieldType → List IntFormat
  | int format => [format]
  | optional inner => inner.formats
  | map key value => key.formats ++ value.formats
  | _ => []

end FieldType

/-! ## Sizes -/

/--
What the operation writes has at most so many bits and references, where `first` gives the sizes of
records in place. What goes to a cell of its own has at most those of a cell.
-/
def FieldOp.Within (first : String → CellSize) : FieldOp → Nat → Nat → Prop
  | int format, n, _ => format.maxBits ≤ n
  | bool, n, _ => 1 ≤ n
  | address, n, _ => addressBits ≤ n
  | bits count, n, _ => count ≤ n
  | ref _, _, r => 1 ≤ r
  | dict, n, r => 1 ≤ n ∧ 1 ≤ r
  | record name false, n, r => (first name).bits ≤ n ∧ (first name).refs ≤ r
  | record _ true, _, r => 1 ≤ r
  | optional inner false, n, r => 1 ≤ n ∧ inner.Within first (n - 1) r
  | optional inner true, n, r => 1 ≤ n ∧ 1 ≤ r ∧ inner.Within first maxCellBits maxCellRefs

variable {first : String → CellSize}

theorem FieldOp.Within.mono {op : FieldOp} {b b' r r' : Nat} (h : op.Within first b r)
    (hb : b ≤ b') (hr : r ≤ r') : op.Within first b' r' := by
  induction op generalizing b b' with
  | int format => exact le_trans h hb
  | bool => exact le_trans h hb
  | address => exact le_trans h hb
  | bits n => exact le_trans h hb
  | ref kind => exact le_trans h hr
  | dict => exact ⟨h.1.trans hb, h.2.trans hr⟩
  | record name boxed =>
    cases boxed with
    | false => exact ⟨h.1.trans hb, h.2.trans hr⟩
    | true => exact le_trans h hr
  | optional inner boxed ih =>
    cases boxed with
    | false => exact ⟨h.1.trans hb, ih h.2 (Nat.sub_le_sub_right hb 1)⟩
    | true => exact ⟨h.1.trans hb, h.2.1.trans hr, h.2.2⟩

namespace Lowered

/-- The operation is one for the type, and it is within its size if its content fits a cell. -/
def Sound (first : String → CellSize) (type : FieldType) : Lowered → Prop
  | fixed op size payload => type.Lowers op
    ∧ (payload.fitsCell = true → size.fitsCell = true ∧ op.Within first size.bits size.refs)
  | nested name => type = .record name

theorem sound_plain {type : FieldType} {op : FieldOp} {size : CellSize} (h : type.Lowers op)
    (hw : op.Within first size.bits size.refs) : (plain op size).Sound first type :=
  ⟨h, fun hfits => ⟨hfits, hw⟩⟩

/-- An optional value of an operation that is neither a map nor a reference. -/
theorem sound_optional {type : FieldType} {op : FieldOp} {size payload : CellSize}
    (h : (fixed op size payload).Sound first type) (hop : op ≠ .dict) :
    (if ((⟨1, 0⟩ : CellSize) + size).fitsCell
      then fixed (.optional op false) (⟨1, 0⟩ + size) (⟨1, 0⟩ + payload)
      else fixed (.optional op true) bitAndRef payload).Sound first (.optional type) := by
  obtain ⟨hlow, hsize⟩ := h
  by_cases hinline : ((⟨1, 0⟩ : CellSize) + size).fitsCell = true
  · rw [if_pos hinline]
    refine ⟨.optional false hlow hop, fun hpayload => ⟨hinline, ?_⟩⟩
    have hw := (hsize (CellSize.fitsCell_right hpayload)).2
    rw [CellSize.add_of_fitsCell hinline]
    exact ⟨Nat.le_add_right 1 _, hw.mono (by simp) (by simp)⟩
  · rw [if_neg hinline]
    refine ⟨.optional true hlow hop, fun hpayload => ⟨rfl, le_refl 1, le_refl 1, ?_⟩⟩
    obtain ⟨hfits, hw⟩ := hsize hpayload
    obtain ⟨hb, hr⟩ := CellSize.fitsCell_iff.1 hfits
    exact hw.mono hb (hr.trans (Nat.sub_le _ _))

end Lowered

/-- Every field type but a record has an operation of its own, within the stated size. -/
theorem FieldType.sound_lower
    (hfirst : ∀ name, (first name).bits ≤ maxCellBits ∧ (first name).refs ≤ maxCellRefs)
    (type : FieldType) : type.lower.Sound first type := by
  induction type with
  | int format => exact Lowered.sound_plain (.int format) (le_refl _)
  | bool => exact Lowered.sound_plain .bool (le_refl _)
  | address => exact Lowered.sound_plain .address (le_refl _)
  | bits n => exact Lowered.sound_plain (.bits n) (le_refl _)
  | cell => exact Lowered.sound_plain .cell (le_refl _)
  | slice => exact Lowered.sound_plain .slice (le_refl _)
  | builder => exact Lowered.sound_plain .builder (le_refl _)
  | string => exact Lowered.sound_plain .string (le_refl _)
  | map key value => exact Lowered.sound_plain (.map key value) ⟨le_refl _, le_refl _⟩
  | record name => exact rfl
  | optional inner ih =>
    rw [lower]
    cases hinner : inner.lower with
    | nested name =>
      rw [hinner] at ih
      obtain rfl : inner = .record name := ih
      refine Lowered.sound_plain (.optional true (.record name false) (by simp)) ?_
      exact ⟨le_refl _, le_refl _, hfirst name⟩
    | fixed op size payload =>
      rw [hinner] at ih
      cases op with
      | dict => exact Lowered.sound_plain (.optionalMap ih.1) ⟨le_refl _, le_refl _⟩
      | ref kind =>
        refine Lowered.sound_plain (.optional false ih.1 (by simp)) ?_
        exact ⟨le_refl _, le_refl _⟩
      | _ => exact Lowered.sound_optional ih (by simp)

/-- The operation of a placement is one for the type of its field, within the stated size. -/
theorem Costs.sound {nested : String → Layout → Prop}
    (hfirst : ∀ name, (first name).bits ≤ maxCellBits ∧ (first name).refs ≤ maxCellRefs)
    (hnested : ∀ name l, nested name l → first name = l.firstCellSize)
    {current : LayoutCell} {type : FieldType} {op : FieldOp} {size : CellSize}
    (h : Costs nested current type op size) :
    type.Lowers op ∧ op.Within first size.bits size.refs := by
  have hsound := type.sound_lower hfirst
  cases h with
  | fixed h fits =>
    rw [h] at hsound
    exact ⟨hsound.1, (hsound.2 fits).2⟩
  | @nested name l h hl =>
    rw [h] at hsound
    obtain rfl : type = .record name := hsound
    obtain ⟨boxed, heq, -⟩ := nestedOp_eq current name l
    rw [heq]
    refine ⟨.record name boxed, ?_⟩
    cases boxed with
    | false => exact ⟨(hnested name l hl).symm ▸ le_refl _, (hnested name l hl).symm ▸ le_refl _⟩
    | true => exact le_refl 1

end CellPack
