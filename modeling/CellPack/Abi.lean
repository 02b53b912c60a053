import CellPack.Json.Printer
import CellPack.Signature
/-!
# Interface description

A contract's description lists the user's structs and messages with their schemas. Its text is
addressed by a link that depends on the content alone.
-/

namespace CellPack

/-- Makes a link of the text of a description. -/
abbrev Addresser := String → String

/-- A link that holds the check value of the text. -/
def crc32Link : Addresser := fun content => "crc32:" ++ Numeral.hex 8 (Crc32.ofText content).toNat

namespace TypeStore

/-- A field in a description. -/
def fieldDescription (s : TypeStore) (f : Field) : Json :=
  .obj [("name", .str f.name), ("type", .str (s.schemaText f.type))]

/-- A record type in a description. -/
def typeDescription (s : TypeStore) (t : RecordType) : Json :=
  let header := t.headerValue.map fun h => ("header", Json.int h.toNat)
  .obj ([("name", .str t.name)] ++ header.toList
    ++ [("schema", .str (t.schema.getD "")), ("fields", .arr (t.fields.map s.fieldDescription))])

/-- The description of a contract. -/
def description (s : TypeStore) (contract : String) : Json :=
  let types := s.types.filter fun t => t.kind.isFieldType ∧ t.origin = .user
  .obj [("name", .str contract), ("types", .arr (types.map s.typeDescription))]

/-- The text of the description of a contract. -/
def descriptionText (s : TypeStore) (contract : String) : String := (s.description contract).pretty

end TypeStore
end CellPack
