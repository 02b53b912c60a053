import CellPack.CompileError
import CellPack.TypeStore.Basic
/-!
# Dependency order

A record type depends on the types of the records that it contains in place; optional values and
maps only mention types, which must be declared. `dependencyOrder` visits the types depth first in
order of declaration and lists each one after everything it depends on.
-/

namespace CellPack

namespace TypeStore

/-- Whether a name can be the type of a field. -/
def isFieldType (s : TypeStore) (name : String) : Bool :=
  match s.get? name with
  | some t => t.kind.isFieldType
  | none => false

/-- Fails at the first mention of a name in a field that is no field type. -/
def checkMentions (s : TypeStore) (t : RecordType) (f : Field) : Except CompileError Unit :=
  f.type.mentioned.forM fun name =>
    if s.isFieldType name then .ok () else .error (.unresolvedType t.name f.name name)

/-- Fails at the first mention of a name that is no field type. -/
def checkAllMentions (s : TypeStore) : Except CompileError Unit :=
  s.types.forM fun t => t.allFields.forM (s.checkMentions t)

/-- The types that a type contains in place, in order of its fields. -/
def dependencies (s : TypeStore) (name : String) : List String :=
  match s.get? name with
  | some t => t.allFields.filterMap (·.type.inlineRecord?)
  | none => []

end TypeStore

/--
Visits a name and everything it depends on. `path` leads from the start of the visit to `name`, and
`done` lists the names already finished. The first argument bounds the length of the path.
-/
def visit (dependencies : String → List String) :
    Nat → List String → List String → String → Except CompileError (List String)
  | 0, path, _, _ => .error (.cyclicDependency path)
  | n + 1, path, done, name =>
    if name ∈ done then .ok done
    else do
      let path := path ++ [name]
      let done ← (dependencies name).foldlM
        (fun done target =>
          if target ∈ path then .error (.cyclicDependency (path.dropWhile (· ≠ target)))
          else visit dependencies n path done target)
        done
      .ok (done ++ [name])

/-- The names of all record types, each behind those that it depends on. -/
def TypeStore.dependencyOrder (s : TypeStore) : Except CompileError (List String) := do
  s.checkAllMentions
  s.types.foldlM (fun done t => visit s.dependencies (s.size + 1) [] done t.name) []

end CellPack
