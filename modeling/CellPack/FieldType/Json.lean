import CellPack.FieldType.Basic
import CellPack.Json.Basic
/-!
# Field types in JSON

A field type is a record with a `kind`. The whole record is taken in before it is decoded, so it
must be readable throughout, ignored keys included.
-/

namespace CellPack.FieldType

/-- The JSON form. -/
def toJson : FieldType → Json
  | int format => .obj [("kind", .str "int"), ("format", .str format.text)]
  | bool => .obj [("kind", .str "bool")]
  | address => .obj [("kind", .str "address")]
  | bits n => .obj [("kind", .str "bits"), ("bits", .int n)]
  | cell => .obj [("kind", .str "cell")]
  | slice => .obj [("kind", .str "slice")]
  | builder => .obj [("kind", .str "builder")]
  | string => .obj [("kind", .str "string")]
  | optional inner => .obj [("kind", .str "optional"), ("inner", inner.toJson)]
  | map key value =>
    .obj [("kind", .str "map"), ("key", key.toJson), ("value", value.toJson)]
  | record name => .obj [("kind", .str "struct"), ("name", .str name)]

/-- The names of the kinds. -/
def kinds : List String :=
  ["int", "bool", "address", "bits", "cell", "slice", "builder", "string", "optional", "map",
    "struct"]

/-- The name of a kind. In a nested type it may be given by its position among the kinds. -/
def kind? (nested : Bool) : Json → Option String
  | .str s => some s
  | .int n => if nested ∧ 0 ≤ n then kinds[n.toNat]? else none
  | _ => none

/-- A tagged record in its parts: the kind, and the record without it. -/
def tagged? (nested : Bool) : Json → Option (String × Json)
  | .obj entries => do
    let some tag ← Json.single? entries "kind" | none
    let kind ← kind? nested tag
    some (kind, .obj (entries.filter (·.1 ≠ "kind")))
  | .arr (tag :: fields) => do
    let kind ← kind? nested tag
    some (kind, .arr fields)
  | _ => none

/-- An integer format by its name. -/
def format? (j : Json) : Option IntFormat := j.text? >>= IntFormat.ofText?

/-- A number of bits. -/
def bitCount? : Json → Option Nat
  | .int n => if 0 ≤ n ∧ n ≤ 65535 then some n.toNat else none
  | _ => none

/-- Decodes a readable value, of at most the given depth. -/
def decode? (nested : Bool) : Nat → Json → Option FieldType
  | 0, _ => none
  | d + 1, j => do
    let (kind, fields) ← tagged? nested j
    let plain (t : FieldType) : Option FieldType := (Json.record? [] fields).map fun _ => t
    match kind with
    | "int" =>
      let [format] ← Json.record? ["format"] fields | none
      int <$> Json.defaulting? format? .widest format
    | "bool" => plain bool
    | "address" => plain address
    | "bits" =>
      let [some n] ← Json.record? ["bits"] fields | none
      bits <$> bitCount? n
    | "cell" => plain cell
    | "slice" => plain slice
    | "builder" => plain builder
    | "string" => plain string
    | "optional" =>
      let [some inner] ← Json.record? ["inner"] fields | none
      optional <$> decode? true d inner
    | "map" =>
      let [some key, some value] ← Json.record? ["key", "value"] fields | none
      let key ← decode? true d key
      let value ← decode? true d value
      some (map key value)
    | "struct" =>
      let [some name] ← Json.record? ["name"] fields | none
      record <$> name.text?
    | _ => none

/-- The field type of its JSON form, nested at most `depth` deep. -/
def ofJson? (depth : Nat) (j : Json) : Option FieldType :=
  if j.readable depth then decode? false depth j else none

end CellPack.FieldType
