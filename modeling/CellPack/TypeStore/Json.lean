import CellPack.Expr.Json
import CellPack.FieldType.Json
import CellPack.Json.Reader
import CellPack.TypeStore.Basic
/-!
# Type stores in JSON

Values of expressions are not part of the JSON form. What is empty or absent and has a default may
be left out; `toJson` leaves out absent expressions, schemas and parameters, and empty constants.
-/

namespace CellPack

/-- Entries of an object that are present. -/
def Json.present (entries : List (String × Option Json)) : Json :=
  .obj (entries.filterMap fun (key, value) => value.map (key, ·))

namespace Field

/-- The JSON form. -/
def toJson (f : Field) : Json :=
  Json.present
    [("name", some (.str f.name)), ("type", some f.type.toJson),
      ("default", f.default.map Expr.toJson)]

/-- The field of its JSON form, nested at most `depth` deep. -/
def ofJson? : Nat → Json → Option Field
  | 0, _ => none
  | d + 1, j => do
    let [some name, some type, default] ← Json.record? ["name", "type", "default"] j | none
    let name ← name.text?
    let type ← FieldType.ofJson? d type
    let default ← Json.defaulting? (Json.nullable? (Expr.ofJson? d)) none default
    some { name, type, default }

end Field

namespace Constant

/-- The JSON form. -/
def toJson (c : Constant) : Json :=
  .obj
    [("name", .str c.name), ("type", c.type.toJson), ("value", c.expr.toJson),
      ("origin", .str c.origin.name)]

/-- The constant of its JSON form, nested at most `depth` deep. -/
def ofJson? : Nat → Json → Option Constant
  | 0, _ => none
  | d + 1, j => do
    let [some name, some type, some expr, origin]
      ← Json.record? ["name", "type", "value", "origin"] j | none
    let name ← name.text?
    let type ← FieldType.ofJson? d type
    let expr ← Expr.ofJson? d expr
    let origin ← Json.defaulting? (Json.choice? d Origin.names) .user origin
    some { name, type, expr, origin }

end Constant

/-- Items of an array, whose brackets count as one level of nesting. -/
def Json.nestedList? {α : Type} (decode : Nat → Json → Option α) : Nat → Json → Option (List α)
  | 0, _ => none
  | d + 1, j => Json.list? (decode d) j

namespace RecordType

/-- The JSON form. -/
def toJson (t : RecordType) : Json :=
  Json.present
    [("name", some (.str t.name)), ("kind", some (.str t.kind.name)),
      ("fields", some (.arr (t.fields.map Field.toJson))),
      ("header", t.header.map Expr.toJson), ("schema", t.schema.map .str),
      ("origin", some (.str t.origin.name)),
      ("init", t.init.map fun params => .arr (params.map Field.toJson)),
      ("constants",
        if t.constants.isEmpty then none else some (.arr (t.constants.map Constant.toJson)))]

/-- The keys of a record type, in order. -/
def keys : List String :=
  ["name", "kind", "fields", "header", "schema", "origin", "init", "constants"]

/-- The record type of its JSON form, nested at most `depth` deep. -/
def ofJson? : Nat → Json → Option RecordType
  | 0, _ => none
  | d + 1, j => do
    let [some name, some kind, fields, header, schema, origin, init, constants]
      ← Json.record? keys j | none
    let name ← name.text?
    let kind ← Json.choice? d RecordKind.names kind
    let fields ← Json.defaulting? (Json.nestedList? Field.ofJson? d) [] fields
    let header ← Json.defaulting? (Json.nullable? (Expr.ofJson? d)) none header
    let schema ← Json.defaulting? (Json.nullable? Json.text?) none schema
    let origin ← Json.defaulting? (Json.choice? d Origin.names) .user origin
    let init ← Json.defaulting? (Json.nullable? (Json.nestedList? Field.ofJson? d)) none init
    let constants ← Json.defaulting? (Json.nestedList? Constant.ofJson? d) [] constants
    some { name, kind, fields, header, schema, origin, init, constants }

end RecordType

namespace TypeStore

/-- A source file, given as path and content. -/
def nativeSource? (depth : Nat) : Json → Option (String × String)
  | .arr [.str path, .str code] => if depth = 0 then none else some (path, code)
  | _ => none

/-- The store of its JSON form, nested at most `depth` deep. -/
def ofJson? : Nat → Json → Except StoreError TypeStore
  | 0, _ => .error .malformed
  | d + 1, j => do
    let parts : Option (List RecordType × List Constant × List (String × String)) := do
      let [types, constants, native]
        ← Json.record? ["types", "constants", "native_sources"] j | none
      let types ← Json.defaulting? (Json.nestedList? RecordType.ofJson? d) [] types
      let constants ← Json.defaulting? (Json.nestedList? Constant.ofJson? d) [] constants
      let native ← Json.defaulting? (Json.nestedList? nativeSource? d) [] native
      some (types, constants, native)
    let some (types, constants, nativeSources) := parts | .error .malformed
    let s ← insertAll empty types
    .ok { s with constants, nativeSources }

/-- The store of a JSON text. -/
def ofText? (text : String) : Except StoreError TypeStore :=
  match Json.read? text with
  | some j => ofJson? Json.maxDepth j
  | none => .error .malformed

end TypeStore
end CellPack
