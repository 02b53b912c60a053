import CellPack.Capacity
import CellPack.ProcName
import CellPack.Program.Basic
import CellPack.TypeStore.Basic
/-!
# Layouts

A layout says in which cell of a chain each field of a record is, and where in it. The first cell
starts with reserved bits; each later cell is the last reference of the one before it.
-/

namespace CellPack

/-- Which layout of a record type is meant. -/
inductive LayoutId where
  /-- The whole record. -/
  | full (name : String)
  /-- What is left of a message when it bounces. -/
  | bounced (name : String)
  /-- The setup parameters of a contract. -/
  | init (name : String)
  deriving DecidableEq, Repr

namespace LayoutId

/-- The name of the record type. -/
def typeName : LayoutId → String
  | full name | bounced name | init name => name

/-- The type name in the names of procedures. -/
def procedureType : LayoutId → String
  | init name => ProcName.initType name
  | full name | bounced name => name

/-- The written form. -/
def text : LayoutId → String
  | full name => name
  | bounced name => name ++ " (bounced)"
  | init name => name ++ " (init)"

end LayoutId

/-- A field in its place in a cell. -/
structure Placement where
  field : String
  op : FieldOp
  bitOffset : Nat
  bits : Nat
  /-- The first reference of the field. -/
  refOffset : Nat
  refs : Nat
  deriving DecidableEq, Repr

/-- The bits and references of the field. -/
def Placement.size (p : Placement) : CellSize := ⟨p.bits, p.refs⟩

/-- A cell of a layout, with the bits and references in use. -/
structure LayoutCell where
  placements : List Placement
  used : CellSize
  deriving DecidableEq, Repr

namespace LayoutCell

/-- A cell without fields. -/
def reserving (bits : Nat) : LayoutCell := ⟨[], ⟨bits, 0⟩⟩

/-- The room that is left. -/
def free (c : LayoutCell) : CellSize :=
  ⟨maxCellBits - c.used.bits, usableCellRefs - c.used.refs⟩

/-- Whether a field of this size has room. -/
def canFit (c : LayoutCell) (size : CellSize) : Bool := (c.used + size).fitsCell

/-- The cell with a field behind the others. -/
def place (c : LayoutCell) (field : String) (op : FieldOp) (size : CellSize) : LayoutCell :=
  { placements := c.placements ++ [⟨field, op, c.used.bits, size.bits, c.used.refs, size.refs⟩]
    used := c.used + size }

end LayoutCell

/-- The layout of a record. -/
structure Layout where
  id : LayoutId
  /-- Bits at the start of the first cell that no field uses. -/
  reserved : Nat
  header : Option UInt32
  cells : List LayoutCell
  /-- All fields in order of declaration. -/
  fields : List String
  /-- The fields without a place, with the values that a parser gives them. -/
  omitted : List (String × DefaultValue)
  deriving DecidableEq, Repr

/-- The largest first cell of a record that another one can contain in place. -/
def maxInlineBits : Nat := 767

namespace Layout

/-- Whether a record that contains this one refers to it. -/
def boxedWhenNested (l : Layout) : Bool :=
  1 < l.cells.length ∨ l.cells.head?.any (fun c => maxInlineBits < c.used.bits)

/-- All placements, each with the number of its cell. -/
def numberedPlacements (l : Layout) : List (Nat × Placement) :=
  l.cells.zipIdx.flatMap fun (cell, i) => cell.placements.map (i, ·)

/-- The place of a field: the cell and the placement, the last one if the name is repeated. -/
def placement? (l : Layout) (field : String) : Option (Nat × Placement) :=
  l.numberedPlacements.findRev? (·.2.field = field)

/-- The cell behind a cell. -/
def next? (l : Layout) (cell : Nat) : Option Nat :=
  if cell + 1 < l.cells.length then some (cell + 1) else none

/-- The size of the first cell, with the reference to the next one. -/
def firstCellSize (l : Layout) : CellSize :=
  match l.cells with
  | [] => .zero
  | [c] => c.used
  | c :: _ => c.used + ⟨0, 1⟩

/-- The bits of all cells. -/
def totalBits (l : Layout) : Nat := l.cells.foldr (fun c n => c.used.bits + n) 0

/-- The references of all fields, and those between the cells. -/
def totalRefs (l : Layout) : Nat :=
  l.cells.foldr (fun c n => c.used.refs + n) 0 + (l.cells.length - 1)

/-- One field in the text of a layout. -/
def placementText (p : Placement) : String :=
  let bits :=
    if p.bits > 0 then " @" ++ toString p.bitOffset ++ "+" ++ toString p.bits else ""
  let refs := if p.refs > 0 then " ref" ++ toString p.refOffset else ""
  "\n    " ++ p.field ++ " " ++ p.op.text ++ bits ++ refs

/-- One cell in the text of a layout. -/
def cellText (l : Layout) (index : Nat) (c : LayoutCell) : String :=
  let next :=
    match l.next? index with
    | some i => "\n    -> cell " ++ toString i
    | none => ""
  "\n  cell " ++ toString index ++ ": " ++ toString c.used.bits ++ " bits, "
    ++ toString c.used.refs ++ " refs" ++ String.join (c.placements.map placementText) ++ next

/-- The written form. -/
def text (l : Layout) : String :=
  let header := l.header.elim "" fun h => " header=" ++ CompileError.headerText h
  let reserved := if l.reserved > 0 then " reserved=" ++ toString l.reserved else ""
  let boxed := if l.boxedWhenNested then " boxed" else ""
  let cells := l.cells.zipIdx.map fun (c, i) => l.cellText i c
  let omitted := l.omitted.map fun (field, value) =>
    "\n  omitted " ++ field ++ " = " ++ value.text
  l.id.text ++ header ++ reserved ++ boxed ++ String.join cells ++ String.join omitted

end Layout
end CellPack
