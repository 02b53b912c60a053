import CellPack.Layout.Basic
/-!
# Programs of layouts

A layout gives one program that writes a record and several that read it. All of them go through
the cells in the same order, so they agree on every border between cells.
-/

namespace CellPack

/-- Which parser of a record type is meant. -/
inductive ParserMode where
  /-- Reads the header first. -/
  | withHeader
  /-- Starts behind the header. -/
  | noHeader
  /-- Reads what is left of a bounced message. -/
  | bounced
  deriving DecidableEq, Repr

namespace ParserMode

/-- The name of the parser of a type. -/
def procedure : ParserMode → String → String
  | withHeader => ProcName.load
  | noHeader => ProcName.loadNoHeader
  | bounced => ProcName.loadBounced

/-- The kind of the program. -/
def kind : ParserMode → ProgramKind
  | bounced => .bouncedParser
  | withHeader | noHeader => .parser

end ParserMode

namespace Layout

/-- Writes cells into each other: the fields of a cell, then the next cell as its last reference. -/
def storeCells : Nat → List LayoutCell → List Instr
  | _, [] => []
  | i, c :: rest =>
    let stores := c.placements.map fun p => Instr.store i p.field p.op
    if rest.isEmpty then stores
    else stores ++ .beginCell (i + 1) :: storeCells (i + 1) rest ++ [.endCell i (i + 1)]

/-- Reads cells behind each other: the fields of a cell, then on to its next reference. -/
def loadCells : Nat → List LayoutCell → List Instr
  | _, [] => []
  | i, c :: rest =>
    let loads := c.placements.map fun p => Instr.load i p.field p.op
    if rest.isEmpty then loads
    else loads ++ .openCell i (i + 1) :: loadCells (i + 1) rest

/-- The program that writes a record. -/
def serializer (l : Layout) : Program :=
  let type := l.id.procedureType
  { name := ProcName.store type
    typeName := type
    kind := .serializer
    fields := l.fields
    instrs := (l.header.map (Instr.storeHeader 0)).toList ++ storeCells 0 l.cells }

/-- A program that reads a record. -/
def parser (l : Layout) (mode : ParserMode) : Program :=
  let type := l.id.procedureType
  let check := if mode = .noHeader then none else l.header.map (Instr.checkHeader 0)
  { name := mode.procedure type
    typeName := type
    kind := mode.kind
    fields := l.fields
    instrs := check.toList ++ loadCells 0 l.cells
      ++ l.omitted.map fun (field, value) => .setDefault field value }

end Layout
end CellPack
