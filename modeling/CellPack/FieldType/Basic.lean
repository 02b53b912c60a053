import CellPack.IntFormat
/-!
# Field types

The types of record fields: integers and other scalars, values behind a reference, optional values,
maps, and other records by name.
-/

namespace CellPack

/-- The type of a field. -/
inductive FieldType where
  | int (format : IntFormat)
  | bool
  | address
  | bits (count : Nat)
  | cell
  | slice
  | builder
  | string
  | optional (inner : FieldType)
  | map (key value : FieldType)
  | record (name : String)
  deriving DecidableEq, Repr

namespace FieldType

/-- Whether a value takes exactly one reference and no bits. -/
def isRef : FieldType → Bool
  | cell | slice | builder | string => true
  | _ => false

/-- The record that a value contains in place. -/
def inlineRecord? : FieldType → Option String
  | record name => some name
  | _ => none

/-- Every record name in the type, from left to right. -/
def mentioned : FieldType → List String
  | record name => [name]
  | optional inner => inner.mentioned
  | map key value => key.mentioned ++ value.mentioned
  | _ => []

/-- The written form. -/
def text : FieldType → String
  | int format => format.text
  | bool => "bool"
  | address => "address"
  | bits n => "bits" ++ toString n
  | cell => "cell"
  | slice => "slice"
  | builder => "builder"
  | string => "string"
  | optional inner => inner.text ++ "?"
  | map key value => "map<" ++ key.text ++ ", " ++ value.text ++ ">"
  | record name => name

end FieldType
end CellPack
