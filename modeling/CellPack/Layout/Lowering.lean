import CellPack.Layout.Basic
/-!
# Costs of field types

Each field type has an operation and a size, except a record, whose size depends on its layout and
on the cell that it goes to. An optional value takes one more bit; if it does not fit a cell then, it
goes to a cell of its own, which its content has to fit.
-/

namespace CellPack

/-- A field type as an operation. -/
inductive Lowered where
  /-- An operation of a size, with the size of what has to fit an empty cell. -/
  | fixed (op : FieldOp) (size payload : CellSize)
  /-- A record. -/
  | nested (name : String)
  deriving DecidableEq, Repr

namespace Lowered

/-- An operation whose content is in place. -/
def plain (op : FieldOp) (size : CellSize) : Lowered := fixed op size size

/-- The size of one bit and one reference. -/
def bitAndRef : CellSize := ⟨1, 1⟩

/-- An optional value. -/
def optional : Lowered → Lowered
  | fixed .dict _ _ => plain .dict bitAndRef
  | fixed (.ref kind) _ _ => plain (.optional (.ref kind) false) bitAndRef
  | fixed op size payload =>
    let inline := (⟨1, 0⟩ : CellSize) + size
    if inline.fitsCell then fixed (.optional op false) inline (⟨1, 0⟩ + payload)
    else fixed (.optional op true) bitAndRef payload
  | nested name => plain (.optional (.record name false) true) bitAndRef

end Lowered

/-- The operation and costs of a field type. -/
def FieldType.lower : FieldType → Lowered
  | int format => .plain (.int format) ⟨format.maxBits, 0⟩
  | bool => .plain .bool ⟨1, 0⟩
  | address => .plain .address ⟨addressBits, 0⟩
  | bits n => .plain (.bits n) ⟨n, 0⟩
  | cell => .plain (.ref .cell) ⟨0, 1⟩
  | slice => .plain (.ref .slice) ⟨0, 1⟩
  | builder => .plain (.ref .builder) ⟨0, 1⟩
  | string => .plain (.ref .string) ⟨0, 1⟩
  | map _ _ => .plain .dict Lowered.bitAndRef
  | record name => .nested name
  | optional inner => inner.lower.optional

/-- The type below all optional layers. -/
def FieldType.withoutOptional : FieldType → FieldType
  | optional inner => inner.withoutOptional
  | type => type

/-- The value that a field takes when it is not read. -/
def FieldType.defaultValue : FieldType → DefaultValue
  | int _ => .zero
  | bool => .false
  | _ => .null

end CellPack
