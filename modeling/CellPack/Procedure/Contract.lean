import CellPack.Procedure.Literal
import CellPack.Procedure.ValueType
/-!
# Storage of contracts

The data of a contract starts with a flag. While it is clear, the parameters follow from which the
first state is made when it is loaded; once it is set, the fields follow.
-/

namespace CellPack

namespace ProcName

/-- Makes the first state of a contract. -/
def contractInit (contract : String) : String := ofType contract "contract_init"

/-- Loads the state of a contract. -/
def contractLoad (contract : String) : String := ofType contract "contract_load"

/-- Stores the state of a contract. -/
def contractStore (contract : String) : String := ofType contract "contract_store"

/-- Makes the data that a contract is deployed with. -/
def initData (contract : String) : String := ofType contract "init_data"

end ProcName

/-- The first value of a field: its default, the parameter of its name, or nothing. -/
def initialValue (params : List Field) (f : Field) : Line :=
  match f.value with
  | some v => v.codeLiteral
  | none =>
    if params.any (·.name = f.name) then .plain (Body.value f.name) else .plain "null()"

/-- Lines between commas. -/
def commaSeparated (ls : List Line) : Line := (ls.intersperse [.text ", "]).flatten

namespace TypeStore

/-- Parameters of a procedure. -/
def parameterText (s : TypeStore) (params : List Field) : String :=
  String.intercalate ", "
    (params.map fun p => s.codeType p.type ++ " " ++ Body.value p.name)

/-- The procedure that makes the first state. -/
def contractInitProcedure (s : TypeStore) (t : RecordType) : Procedure :=
  let name := ProcName.contractInit t.name
  let params := t.init.getD []
  { name
    signature := s.tensor t.fields ++ " " ++ name ++ "(" ++ s.parameterText params ++ ")"
    part := .type t.name
    impure := true
    modifier := .inline
    body := [[.text "return ("] ++ commaSeparated (t.fields.map (initialValue params))
      ++ [.text ");"]] }

/-- Reads the parameters of a contract that declares some. -/
def loadParameters (t : RecordType) : List Line :=
  match t.init with
  | none => []
  | some params =>
    let source := Line.around "$sc~" (ProcName.load (ProcName.initType t.name)) "()"
    if params.isEmpty then [source ++ [.text ";"]]
    else Body.destructure (params.map (·.name)) source

/-- The procedure that loads the state. -/
def contractLoadProcedure (s : TypeStore) (t : RecordType) : Procedure :=
  let name := ProcName.contractLoad t.name
  let args := Body.valueList ((t.init.getD []).map (·.name))
  { name
    signature := s.tensor t.fields ++ " " ++ name ++ "()"
    part := .type t.name
    impure := true
    modifier := .inline
    body :=
      [.plain "slice $sc = get_data().begin_parse();", .plain "int $loaded = $sc~load_int(1);",
        .plain "if ($loaded) \x7b",
        .around "    return $sc~" (ProcName.loadNoHeader t.name) "();", .plain "\x7d"]
        ++ loadParameters t
        ++ [.plain "$sc.end_parse();",
          .around "return " (ProcName.contractInit t.name) ("(" ++ args ++ ");")] }

/-- The procedure that stores the state. -/
def contractStoreProcedure (s : TypeStore) (t : RecordType) : Procedure :=
  let name := ProcName.contractStore t.name
  { name
    signature := "() " ++ name ++ "(" ++ s.tensor t.fields ++ " v)"
    part := .type t.name
    impure := true
    modifier := .inline
    body :=
      [.plain "builder b = begin_cell();", .plain "b = b.store_int(true, 1);",
        .around "b = " (ProcName.store t.name) "(b, v);", .plain "set_data(b.end_cell());"] }

/-- The procedures on the data of a contract. -/
def contractProcedures (s : TypeStore) (t : RecordType) : List Procedure :=
  [s.contractInitProcedure t, s.contractLoadProcedure t, s.contractStoreProcedure t]

/-- The procedure that makes the data of a deployment: a clear flag, then the parameters. -/
def initDataProcedure (s : TypeStore) (t : RecordType) : Procedure :=
  let name := ProcName.initData t.name
  let store :=
    match t.init with
    | none => []
    | some params =>
      let values := Body.valueList (params.map (·.name))
      [Line.around "b = " (ProcName.store (ProcName.initType t.name)) ("(b, (" ++ values ++ "));")]
  { name
    signature := "cell " ++ name ++ "(" ++ s.parameterText (t.init.getD []) ++ ")"
    part := .typeInit t.name
    modifier := .inline
    body :=
      [.plain "builder b = begin_cell();", .plain "b = b.store_int(false, 1);"] ++ store
        ++ [.plain "return b.end_cell();"] }

end TypeStore
end CellPack
