import CellPack.Layout.Programs
import CellPack.Procedure.Body
import CellPack.Procedure.ValueType
/-!
# Procedures of a record type

The serializer and the parsers of a layout, wrappers around them for cells and optional values, and
accessors of the fields.
-/

namespace CellPack

namespace ProcName

/-- Reads a field of a record. -/
def getField (type field : String) : String := ofType type ("get_" ++ field)

/-- Makes a tuple of a record. -/
def toTuple (type : String) : String := ofType type "to_tuple"

/-- Makes a present optional value of a record. -/
def asOptional (type : String) : String := ofType type "as_optional"

/-- The record of an optional value, which has to be present. -/
def recordNotNull (type : String) : String := ofType type "not_null"

end ProcName

/-- The exit code of a procedure that meets an absent record. -/
def absentRecordExitCode : Nat := 128

namespace Layout

/-- Procedures of one cell are inlined, longer ones only if forced. -/
def modifier (l : Layout) (forceInline : Bool) : Modifier :=
  if forceInline ∨ l.cells.length = 1 then .inline else .inlineRef

/-- A short account of a layout. -/
def comment (l : Layout) : String :=
  l.id.text ++ ": " ++ toString l.cells.length ++ " cell(s), " ++ toString l.totalBits
    ++ " bits, " ++ toString l.totalRefs ++ " refs"

/-- The procedure of the serializer. -/
def serializerProcedure (l : Layout) (s : TypeStore) (fields : List Field) (sec : Section)
    (forceInline : Bool) : Procedure :=
  let p := l.serializer
  { name := p.name
    signature := "builder " ++ p.name ++ "(builder " ++ Body.builder 0 ++ ", " ++ s.tensor fields
      ++ " v)"
    part := sec
    modifier := l.modifier forceInline
    comment := some l.comment
    body := Body.ofSerializer p
    program := some p }

/-- The procedure of a parser. -/
def parserProcedure (l : Layout) (s : TypeStore) (fields : List Field) (sec : Section)
    (mode : ParserMode) (forceInline : Bool) : Procedure :=
  let p := l.parser mode
  { name := p.name
    signature := "(slice, " ++ s.tensor fields ++ ") " ++ p.name ++ "(slice " ++ Body.slice 0
      ++ ")"
    part := sec
    modifier := l.modifier forceInline
    comment := some l.comment
    body := Body.ofParser p
    program := some p }

end Layout

/-- The procedures that write and read a record in a cell of its own or as an optional value. -/
def wrapperProcedures (type tensor : String) (sec : Section) : List Procedure :=
  [{ name := ProcName.storeCell type
     signature := "cell " ++ ProcName.storeCell type ++ "(" ++ tensor ++ " v)"
     part := sec
     modifier := .inline
     body := [.around "return " (ProcName.store type) "(begin_cell(), v).end_cell();"] },
   { name := ProcName.storeOpt type
     signature := "builder " ++ ProcName.storeOpt type ++ "(builder b, tuple v)"
     part := sec
     modifier := .inline
     body :=
       [.plain "if (null?(v)) \x7b", .plain "    return b.store_int(false, 1);", .plain "\x7d",
        Line.around "return b.store_int(true, 1).store_ref(" (ProcName.storeCell type) "("
          ++ Line.around "" (ProcName.recordNotNull type) "(v)));"] },
   { name := ProcName.loadCell type
     signature := tensor ++ " " ++ ProcName.loadCell type ++ "(cell c)"
     part := sec
     modifier := .inline
     body :=
       [.around "var (sc, v) = " (ProcName.load type) "(c.begin_parse());", .plain "return v;"] },
   { name := ProcName.loadOpt type
     signature := "(slice, tuple) " ++ ProcName.loadOpt type ++ "(slice sc)"
     part := sec
     modifier := .inline
     body :=
       [.plain "if (sc~load_int(1)) \x7b",
        Line.around "    return (sc, " (ProcName.asOptional type) "("
          ++ Line.around "" (ProcName.loadCell type) "(sc~load_ref())));",
        .plain "\x7d", .plain "return (sc, null());"] }]

/-- The procedure that reads one field of a record. -/
def getterProcedure (s : TypeStore) (type : String) (fields : List Field) (sec : Section)
    (f : Field) : Procedure :=
  let name := ProcName.getField type f.name
  { name
    signature := s.codeType f.type ++ " " ++ name ++ "(" ++ s.tensor fields ++ " v)"
    part := sec
    modifier := .inline
    body := Body.destructure (fields.map (·.name)) (.plain "v")
      ++ [.plain ("return " ++ Body.value f.name ++ ";")] }

/-- A procedure that makes a tuple of a record. -/
def tupleProcedure (s : TypeStore) (name : String) (fields : List Field) (sec : Section) :
    Procedure :=
  let names := fields.map (·.name)
  { name
    signature := "tuple " ++ name ++ "(" ++ s.tensor fields ++ " v)"
    part := sec
    modifier := .inline
    body := Body.destructure names (.plain "v")
      ++ [.plain ("return [" ++ Body.valueList names ++ "];")] }

/-- The procedure that makes a record of a present optional value. -/
def notNullProcedure (s : TypeStore) (type : String) (fields : List Field) (sec : Section) :
    Procedure :=
  let name := ProcName.recordNotNull type
  let values := Body.valueList (fields.map (·.name))
  { name
    signature := s.tensor fields ++ " " ++ name ++ "(tuple v)"
    part := sec
    modifier := .inline
    body :=
      [.plain ("throw_if(" ++ toString absentRecordExitCode ++ ", null?(v));")]
        ++ (if fields.isEmpty then [] else [.plain ("var [" ++ values ++ "] = v;")])
        ++ [.plain ("return (" ++ values ++ ");")] }

/-- The accessors of a record type. -/
def accessorProcedures (s : TypeStore) (type : String) (fields : List Field) (sec : Section) :
    List Procedure :=
  fields.map (getterProcedure s type fields sec)
    ++ [tupleProcedure s (ProcName.toTuple type) fields sec,
      tupleProcedure s (ProcName.asOptional type) fields sec,
      notNullProcedure s type fields sec]

end CellPack
