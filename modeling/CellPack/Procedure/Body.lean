import CellPack.Capacity
import CellPack.ProcName
import CellPack.Procedure.Basic
/-!
# Bodies of programs

The lines of a program as a procedure: builders are numbered variables `build_0`, slices `sc_0`, and
the value of a field has the name of the field.
-/

namespace CellPack

namespace ProcName

/-- The helper that writes an address. -/
def storeAddress : String := "__tessera_store_address"

/-- The helper that reads an address. -/
def loadAddress : String := "__tessera_load_address"

/-- The helper that makes an address of its parts. -/
def makeAddress : String := "__tessera_address"

/-- The helper that puts a text into a chain of cells. -/
def textToCell : String := "__tessera_string_to_cell"

/-- The helper that refuses an absent value. -/
def notNull : String := "__tessera_not_null"

end ProcName

namespace Body

/-- The variable of a builder. -/
def builder (cell : Nat) : String := "build_" ++ toString cell

/-- The variable of a slice. -/
def slice (cell : Nat) : String := "sc_" ++ toString cell

/-- The variable of a field. -/
def value (field : String) : String := "v'" ++ field

/-- The variables of fields. -/
def valueList (fields : List String) : String := String.intercalate ", " (fields.map value)

/-- Takes a record apart, unless it has no fields. -/
def destructure (fields : List String) (source : Line) : List Line :=
  if fields.isEmpty then []
  else [[.text ("var (" ++ valueList fields ++ ") = ")] ++ source ++ [.text ";"]]

/-! ## Writing -/

/-- Writes an integer `x` to the builder `b`. -/
def storeInt (b x : String) : IntFormat → String
  | .int n => b ++ ".store_int(" ++ x ++ ", " ++ toString n ++ ")"
  | .uint n => b ++ ".store_uint(" ++ x ++ ", " ++ toString n ++ ")"
  | .varUint .w16 => b ++ ".store_coins(" ++ x ++ ")"
  | .varUint w => b ++ ".store_varuint" ++ toString w.suffix ++ "(" ++ x ++ ")"
  | .varInt w => b ++ ".store_varint" ++ toString w.suffix ++ "(" ++ x ++ ")"

/-- Writes a reference `x` to the builder `b`. -/
def storeRef (b x : String) : RefKind → Line
  | .cell => .plain (b ++ ".store_ref(" ++ x ++ ")")
  | .slice => .plain (b ++ ".store_ref(begin_cell().store_slice(" ++ x ++ ").end_cell())")
  | .builder => .plain (b ++ ".store_ref(" ++ x ++ ".end_cell())")
  | .string => .around (b ++ ".store_ref(") ProcName.textToCell ("(" ++ x ++ "))")

/-- Writes `x` to the builder `b`. -/
def store (x : String) : FieldOp → String → Line
  | .int format, b => .plain (storeInt b x format)
  | .bool, b => .plain (b ++ ".store_int(" ++ x ++ ", 1)")
  | .address, b => .around "" ProcName.storeAddress ("(" ++ b ++ ", " ++ x ++ ")")
  | .bits _, b => .plain (b ++ ".store_slice(" ++ x ++ ")")
  | .ref kind, b => storeRef b x kind
  | .dict, b => .plain (b ++ ".store_dict(" ++ x ++ ")")
  | .record name false, b => .around "" (ProcName.store name) ("(" ++ b ++ ", " ++ x ++ ")")
  | .record name true, b =>
    .around (b ++ ".store_ref(") (ProcName.storeCell name) ("(" ++ x ++ "))")
  | .optional (.record name false) true, b =>
    .around "" (ProcName.storeOpt name) ("(" ++ b ++ ", " ++ x ++ ")")
  | .optional inner false, b =>
    [.text ("~ null?(" ++ x ++ ") ? ")] ++ store x inner (b ++ ".store_int(true, 1)")
      ++ [.text (" : " ++ b ++ ".store_int(false, 1)")]
  | .optional inner true, b =>
    [.text ("~ null?(" ++ x ++ ") ? " ++ b ++ ".store_int(true, 1).store_ref(")]
      ++ store x inner "begin_cell()"
      ++ [.text (".end_cell()) : " ++ b ++ ".store_int(false, 1)")]

/-- The line of an instruction that writes. -/
def storeLine : Instr → List Line
  | .beginCell cell => [.plain ("var " ++ builder cell ++ " = begin_cell();")]
  | .storeHeader cell header =>
    let b := builder cell
    [.plain (b ++ " = " ++ b ++ ".store_uint(" ++ CompileError.headerText header ++ ", 32);")]
  | .store cell field op =>
    let b := builder cell
    [[.text (b ++ " = ")] ++ store (value field) op b ++ [.text ";"]]
  | .endCell parent child =>
    let p := builder parent
    [.plain (p ++ " = " ++ p ++ ".store_ref(" ++ builder child ++ ".end_cell());")]
  | _ => []

/-- The body of a serializer. -/
def ofSerializer (p : Program) : List Line :=
  destructure p.fields (.plain "v") ++ p.instrs.flatMap storeLine
    ++ [.plain ("return " ++ builder 0 ++ ";")]

/-! ## Reading -/

/-- Reads an integer from the slice `s`. -/
def loadInt (s : String) : IntFormat → String
  | .int n => s ++ "~load_int(" ++ toString n ++ ")"
  | .uint n => s ++ "~load_uint(" ++ toString n ++ ")"
  | .varUint .w16 => s ++ "~load_coins()"
  | .varUint w => s ++ "~load_varuint" ++ toString w.suffix ++ "()"
  | .varInt w => s ++ "~load_varint" ++ toString w.suffix ++ "()"

/-- Reads a reference from the slice `s`. -/
def loadRef (s : String) : RefKind → String
  | .cell => s ++ "~load_ref()"
  | .slice | .string => s ++ "~load_ref().begin_parse()"
  | .builder => "begin_cell().store_slice(" ++ s ++ "~load_ref().begin_parse())"

/-- Reads a value in place from the slice `s`. -/
def load (s : String) : FieldOp → Line
  | .int format => .plain (loadInt s format)
  | .bool => .plain (s ++ "~load_int(1)")
  | .address => .around (s ++ "~") ProcName.loadAddress "()"
  | .bits n => .plain (s ++ "~load_bits(" ++ toString n ++ ")")
  | .ref kind => .plain (loadRef s kind)
  | .dict => .plain (s ++ "~load_dict()")
  | .record name false => .around (s ++ "~") (ProcName.load name) "()"
  | .record name true => .around "" (ProcName.loadCell name) ("(" ++ s ++ "~load_ref())")
  | .optional (.record name false) true => .around (s ++ "~") (ProcName.loadOpt name) "()"
  | .optional inner _ =>
    [.text (s ++ "~load_int(1) ? ")] ++ load s inner ++ [.text " : null()"]

/-- Whether an operation is an optional value in a cell of its own that has no helper. -/
def boxedInner? : FieldOp → Option FieldOp
  | .optional (.record _ false) true => none
  | .optional inner true => some inner
  | _ => none

/-- Reads a field from the slice `s`. -/
def loadLines (op : FieldOp) (s field : String) : List Line :=
  let v := value field
  match boxedInner? op with
  | some inner =>
    let boxed := "sc'" ++ field
    [.plain ("var " ++ v ++ " = null();"), .plain ("if (" ++ s ++ "~load_int(1)) \x7b"),
      .plain ("    slice " ++ boxed ++ " = " ++ s ++ "~load_ref().begin_parse();"),
      [.text ("    " ++ v ++ " = ")] ++ load boxed inner ++ [.text ";"], .plain "\x7d"]
  | none => [[.text ("var " ++ v ++ " = ")] ++ load s op ++ [.text ";"]]

/-- A default value in code. -/
def defaultLiteral : DefaultValue → String
  | .zero => "0"
  | .false => "false"
  | .null => "null()"

/-- The lines of an instruction that reads. -/
def loadInstr : Instr → List Line
  | .checkHeader cell header =>
    [.plain ("throw_unless(" ++ toString headerMismatchExitCode ++ ", " ++ slice cell
      ++ "~load_uint(32) == " ++ CompileError.headerText header ++ ");")]
  | .openCell parent child =>
    [.plain ("slice " ++ slice child ++ " = " ++ slice parent ++ "~load_ref().begin_parse();")]
  | .load cell field op => loadLines op (slice cell) field
  | .setDefault field v => [.plain ("var " ++ value field ++ " = " ++ defaultLiteral v ++ ";")]
  | _ => []

/-- The body of a parser. -/
def ofParser (p : Program) : List Line :=
  p.instrs.flatMap loadInstr
    ++ [.plain ("return (" ++ slice 0 ++ ", (" ++ valueList p.fields ++ "));")]

end Body
end CellPack
