import CellPack.CompileError
import CellPack.IntFormat
import CellPack.Table
/-!
# Programs

A program is a list of instructions that writes a record into a chain of cells, or reads it back.
Cells of the chain are numbered from 0, the one that the caller provides.
-/

namespace CellPack

/-- What a reference stands for. -/
inductive RefKind where
  | cell
  | slice
  | builder
  /-- A text in a chain of cells. -/
  | string
  deriving DecidableEq, Repr

/-- How a field is written and read. -/
inductive FieldOp where
  | int (format : IntFormat)
  | bool
  | address
  | bits (count : Nat)
  | ref (kind : RefKind)
  /-- A bit that says whether a reference follows. -/
  | dict
  /-- A record, in place or in a cell of its own. -/
  | record (name : String) (boxed : Bool)
  /-- A bit that says whether a value follows, in place or in a cell of its own. -/
  | optional (inner : FieldOp) (boxed : Bool)
  deriving DecidableEq, Repr

namespace FieldOp

/-- The written form. -/
def text : FieldOp → String
  | int format => format.text
  | bool => "bool"
  | address => "address"
  | bits n => "bits" ++ toString n
  | ref .cell => "^cell"
  | ref .slice => "^slice"
  | ref .builder => "^builder"
  | ref .string => "^string"
  | dict => "dict"
  | record name false => name
  | record name true => "^" ++ name
  | optional inner false => "maybe " ++ inner.text
  | optional inner true => "maybe ^" ++ inner.text

end FieldOp

/-- The value of a field that is not read. -/
inductive DefaultValue where
  | zero
  | false
  | null
  deriving DecidableEq, Repr

/-- The written form. -/
def DefaultValue.text : DefaultValue → String
  | zero => "Zero"
  | false => "False"
  | null => "Null"

/-- An instruction. -/
inductive Instr where
  /-- Starts writing a cell. -/
  | beginCell (cell : Nat)
  | storeHeader (cell : Nat) (value : UInt32)
  | store (cell : Nat) (field : String) (op : FieldOp)
  /-- Finishes `child` and refers to it from `parent`. -/
  | endCell (parent child : Nat)
  /-- Reads a header and refuses any other than `value`. -/
  | checkHeader (cell : Nat) (value : UInt32)
  /-- Starts reading the next cell that `parent` refers to. -/
  | openCell (parent child : Nat)
  | load (cell : Nat) (field : String) (op : FieldOp)
  /-- Gives a field a value without reading. -/
  | setDefault (field : String) (value : DefaultValue)
  deriving DecidableEq, Repr

/-- The written form. -/
def Instr.text : Instr → String
  | beginCell cell => "begin      b" ++ toString cell
  | storeHeader cell value =>
    "header     b" ++ toString cell ++ " " ++ CompileError.headerText value
  | store cell field op => "store      b" ++ toString cell ++ " " ++ field ++ " " ++ op.text
  | endCell parent child => "end        b" ++ toString child ++ " -> b" ++ toString parent
  | checkHeader cell value =>
    "check      s" ++ toString cell ++ " " ++ CompileError.headerText value
  | openCell parent child => "open       s" ++ toString parent ++ " -> s" ++ toString child
  | load cell field op => "load       s" ++ toString cell ++ " " ++ field ++ " " ++ op.text
  | setDefault field value => "default    " ++ field ++ " " ++ value.text

/-- What a program does. -/
inductive ProgramKind where
  | serializer
  | parser
  /-- Reads the part of a message that is left when it bounces. -/
  | bouncedParser
  deriving DecidableEq, Repr

/-- The written form. -/
def ProgramKind.text : ProgramKind → String
  | serializer => "Serializer"
  | parser => "Parser"
  | bouncedParser => "BouncedParser"

/-- A program of a record type. -/
structure Program where
  name : String
  typeName : String
  kind : ProgramKind
  /-- The fields of the record, in order. -/
  fields : List String
  instrs : List Instr
  deriving DecidableEq, Repr

namespace Program

/-- The cell that an instruction starts. -/
def startedCell? : Instr → Option Nat
  | .beginCell cell => some cell
  | .openCell _ child => some child
  | _ => none

/-- The number of cells of the chain. -/
def cellCount (p : Program) : Nat :=
  match (p.instrs.filterMap startedCell?).max? with
  | some last => last + 1
  | none => 1

/-- The written form. -/
def text (p : Program) : String :=
  p.name ++ " (" ++ p.kind.text ++ ")" ++ String.join (p.instrs.map fun i => "\n  " ++ i.text)

end Program

/-- Programs by name, in order of generation. The first program of a name counts. -/
abbrev ProgramSet := Table String Program

namespace ProgramSet

/-- Adds a program unless its name is taken. -/
def insert (set : ProgramSet) (p : Program) : ProgramSet := Table.putNew set p.name p

/-- The set of a list of programs. -/
def ofList (ps : List Program) : ProgramSet := ps.foldl insert []

/-- The programs in order. -/
def toList (set : ProgramSet) : List Program := set.map (·.2)

end ProgramSet
end CellPack
