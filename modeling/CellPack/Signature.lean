import CellPack.CompileError
import CellPack.Crc32
import CellPack.TypeStore.Basic
/-!
# Signatures

Every struct and message has a schema line that names its fields with their types; records that are
contained in place are written out, all others are only named. A message without a header of its
own takes one from the check value of its schema, and no two messages may have the same header.
-/

namespace CellPack

namespace FieldType

/-- The name of a key or value type of a map. -/
def plainName : FieldType → String
  | record name => name
  | other => other.text

/-- The type as a schema writes it, where `contained` writes out a record. -/
def schemaText (contained : String → String) : FieldType → String
  | int format => format.text
  | bool => "bool"
  | address => "address"
  | bits n => "bits" ++ toString n
  | cell => "^cell"
  | slice => "^slice"
  | builder => "^builder"
  | string => "^string"
  | optional (record name) => "Maybe ^" ++ name
  | optional inner => "Maybe " ++ inner.schemaText contained
  | map key value => "dict<" ++ key.plainName ++ ", " ++ value.plainName ++ ">"
  | record name => contained name

end FieldType

namespace TypeStore

/--
A record written out with its fields. The first argument bounds how deep records are written out
inside each other; below that they are only named.
-/
def signatureText (s : TypeStore) : Nat → String → String
  | 0, name => name
  | n + 1, name =>
    match s.get? name with
    | none => name
    | some t =>
      let fields := t.fields.map fun f => f.name ++ ":" ++ f.type.schemaText (s.signatureText n)
      name ++ "\x7b" ++ String.intercalate "," fields ++ "\x7d"

/-- A field type in a schema of the store. -/
def schemaText (s : TypeStore) (type : FieldType) : String :=
  type.schemaText (s.signatureText s.size)

/-- The fields of a schema, each behind a blank. -/
def fieldsSchema (s : TypeStore) (t : RecordType) : String :=
  String.join (t.fields.map fun f => " " ++ f.name ++ ":" ++ s.schemaText f.type)

end TypeStore

/-- A name in lower case, with an underscore in front of each capital but the first letter. -/
def snakeCase (name : String) : String :=
  match name.toList with
  | [] => ""
  | c :: cs =>
    String.ofList (c.toLower :: cs.flatMap fun c => if c.isUpper then ['_', c.toLower] else [c])

/-- The header that a schema gives to its message: 31 bits of its check value. -/
def implicitHeader (schema : String) : UInt32 := Crc32.ofText schema &&& 0x7fffffff

/-- A schema with the header behind its first word. -/
def schemaWithHeader (schema : String) (header : UInt32) : String :=
  let tag := '#' :: (Numeral.hex 8 header.toNat).toList
  let cs := schema.toList
  String.ofList (cs.takeWhile (· ≠ ' ') ++ tag ++ cs.dropWhile (· ≠ ' '))

namespace TypeStore

/-- The schema of a struct, unless it is given. -/
def structSchema (s : TypeStore) (t : RecordType) : String :=
  t.schema.getD ("_" ++ s.fieldsSchema t ++ " = " ++ t.name)

/-- The schema of a message without its header, unless it is given. -/
def messageSchema (s : TypeStore) (t : RecordType) : String :=
  t.schema.getD (snakeCase t.name ++ s.fieldsSchema t ++ " = " ++ t.name)

/-- The header of a message: its own, or the one of its schema. -/
def messageHeader (s : TypeStore) (t : RecordType) : UInt32 :=
  t.headerValue.getD (implicitHeader (s.messageSchema t))

/-- A record type with its schema and header; only structs and messages have a schema. -/
def signed (s : TypeStore) (t : RecordType) : RecordType :=
  match t.kind with
  | .struct => { t with schema := some (s.structSchema t), headerValue := none }
  | .message =>
    let header := s.messageHeader t
    { t with
      schema := some (schemaWithHeader (s.messageSchema t) header)
      headerValue := some header }
  | .contract | .trait => { t with schema := none, headerValue := none }

/-- Fails at the first message whose header an earlier one has. -/
def checkHeaders (s : TypeStore) :
    List (UInt32 × String) → List RecordType → Except CompileError Unit
  | _, [] => .ok ()
  | seen, t :: rest =>
    if t.isMessage then
      let header := s.messageHeader t
      match seen.lookup header with
      | some first => .error (.duplicateHeader header first t.name)
      | none => s.checkHeaders ((header, t.name) :: seen) rest
    else s.checkHeaders seen rest

theorem name_signed (s : TypeStore) (t : RecordType) : (s.signed t).name = t.name := by
  unfold signed
  split <;> rfl

/-- The store with the schemas and headers of all record types. -/
def withSignatures (s : TypeStore) : Except CompileError TypeStore := do
  s.checkHeaders [] s.types
  .ok (s.withTypes (s.types.map s.signed) (by simp [name_signed]))

end TypeStore
end CellPack
