import CellPack.TypeStore.Basic
/-!
# Types in code

The types of values in generated code. A record is the tensor of its fields; one that may be absent
is a tuple.
-/

namespace CellPack

/-- The type of a value in code, where `tensor` gives the type of a record. -/
def FieldType.codeType (tensor : String → String) : FieldType → String
  | int _ | bool => "int"
  | address | bits _ | slice | string => "slice"
  | cell | map _ _ => "cell"
  | builder => "builder"
  | optional (record _) => "tuple"
  | optional inner => inner.codeType tensor
  | record name => tensor name

namespace TypeStore

/-- Types in parentheses. -/
def tensorText (types : List String) : String := "(" ++ String.intercalate ", " types ++ ")"

/-- The tensor of a record. The first argument bounds how deep records are inside each other. -/
def recordTensor (s : TypeStore) : Nat → String → String
  | 0, _ => "tuple"
  | n + 1, name =>
    match s.get? name with
    | some t => tensorText (t.fields.map fun f => f.type.codeType (s.recordTensor n))
    | none => "tuple"

/-- The type of a value in code. -/
def codeType (s : TypeStore) (type : FieldType) : String :=
  type.codeType (s.recordTensor s.size)

/-- The tensor of a list of fields. -/
def tensor (s : TypeStore) (fields : List Field) : String :=
  tensorText (fields.map fun f => s.codeType f.type)

end TypeStore
end CellPack
