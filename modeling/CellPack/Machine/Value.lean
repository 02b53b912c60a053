import CellPack.Address
import CellPack.Cell.Basic
import CellPack.Json.Basic
/-!
# Values

What programs write and read: the value of a field, or a record with its fields in order.
-/

namespace CellPack

/-- A value of a field or of a whole record. -/
inductive Value where
  /-- An absent value or an empty map. -/
  | null
  | int (value : Int)
  | bool (value : Bool)
  | address (value : Address)
  /-- A bit string in whole bytes. -/
  | bits (bytes : List UInt8)
  | cell (value : Cell)
  | string (text : String)
  | record (fields : List (String × Value))

namespace Value

/-- The first field of a name in a record. -/
def get? (v : Value) (field : String) : Option Value :=
  match v with
  | record fields => fields.lookup field
  | _ => none

/-- Whether the value is absent. -/
def isNull : Value → Bool
  | null => true
  | _ => false

mutual
/-- The JSON form: numbers and addresses are texts, a cell is its size. -/
def toJson : Value → Json
  | null => .null
  | int v => .str (toString v)
  | bool b => .bool b
  | address a => .str a.text
  | bits bytes => .str (Numeral.hexBytes bytes)
  | cell c => .obj [("bits", .int c.bits.length), ("cells", .int c.treeSize)]
  | string s => .str s
  | record fields => .obj (fieldsToJson fields)
/-- The JSON forms of fields. -/
def fieldsToJson : List (String × Value) → List (String × Json)
  | [] => []
  | (name, v) :: rest => (name, toJson v) :: fieldsToJson rest
end

end Value
end CellPack
