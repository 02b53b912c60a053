import CellPack.Expr.Basic
/-!
# Type stores

The declared record types by name, in order of declaration, with free-standing constants and source
files that are passed through. Defaults, headers and constants are expressions; each has a slot for
its value. Declared names are distinct: `insert` refuses a name that is taken, and `types_distinct`
keeps the fact.
-/

namespace CellPack

/-- What a record type is for. -/
inductive RecordKind where
  | struct
  | contract
  /-- A set of declarations without a layout. -/
  | trait
  | message
  deriving DecidableEq, Repr

namespace RecordKind

/-- Whether records of this kind are laid out in cells. -/
def hasLayout : RecordKind → Bool
  | trait => false
  | _ => true

/-- Whether a field can be of a record type of this kind. -/
def isFieldType : RecordKind → Bool
  | struct | message => true
  | contract | trait => false

/-- The kinds by name. -/
def names : List (String × RecordKind) :=
  [("struct", struct), ("contract", contract), ("trait", trait), ("message", message)]

/-- The name of a kind. -/
def name : RecordKind → String
  | struct => "struct"
  | contract => "contract"
  | trait => "trait"
  | message => "message"

end RecordKind

/-- Who declared something. -/
inductive Origin where
  | stdlib
  | user
  deriving DecidableEq, Repr

namespace Origin

/-- The origins by name. -/
def names : List (String × Origin) := [("stdlib", stdlib), ("user", user)]

/-- The name of an origin. -/
def name : Origin → String
  | stdlib => "stdlib"
  | user => "user"

end Origin

/-- A field of a record. -/
structure Field where
  name : String
  type : FieldType
  default : Option Expr := none
  /-- The value of the default. -/
  value : Option ConstValue := none
  deriving DecidableEq

/-- A named constant. -/
structure Constant where
  name : String
  type : FieldType
  expr : Expr
  /-- The value of the expression. -/
  value : Option ConstValue := none
  origin : Origin := .user
  deriving DecidableEq

/-- A record type. -/
structure RecordType where
  name : String
  kind : RecordKind
  fields : List Field := []
  /-- The number that tells a message from others. -/
  header : Option Expr := none
  /-- The value of the header. -/
  headerValue : Option UInt32 := none
  /-- The line that describes the layout, if it is given. -/
  schema : Option String := none
  origin : Origin := .user
  /-- The parameters that a contract is set up with. -/
  init : Option (List Field) := none
  constants : List Constant := []
  deriving DecidableEq

namespace RecordType

/-- The first field of a name. -/
def field? (t : RecordType) (name : String) : Option Field :=
  t.fields.find? (·.name = name)

/-- The fields and the setup parameters. -/
def allFields (t : RecordType) : List Field := t.fields ++ t.init.getD []

/-- Whether the type is a message. -/
def isMessage (t : RecordType) : Bool := t.kind = .message

/-- Whether the type is a contract. -/
def isContract (t : RecordType) : Bool := t.kind = .contract

end RecordType

/-- Why a store cannot be read or extended. -/
inductive StoreError where
  | malformed
  | duplicateType (name : String)
  deriving DecidableEq, Repr

/-- The text of the error. -/
def StoreError.message : StoreError → String
  | malformed => "malformed type store"
  | duplicateType name => "type `" ++ name ++ "` is declared more than once"

/-- Record types of distinct names in order of declaration, constants and source files. -/
structure TypeStore where
  types : List RecordType := []
  constants : List Constant := []
  /-- Source files that are passed through, as path and content. -/
  nativeSources : List (String × String) := []
  types_distinct : (types.map (·.name)).Nodup := by simp

namespace TypeStore

/-- The store without any declaration. -/
def empty : TypeStore := {}

/-- The record type of a name. -/
def get? (s : TypeStore) (name : String) : Option RecordType :=
  s.types.find? (·.name = name)

/-- Whether a record type of this name is declared. -/
def contains (s : TypeStore) (name : String) : Bool := s.types.any (·.name = name)

/-- The number of record types. -/
def size (s : TypeStore) : Nat := s.types.length

theorem not_mem_names_of_not_contains {s : TypeStore} {name : String}
    (h : ¬s.contains name) : name ∉ s.types.map (·.name) := by
  simpa [contains] using h

/-- Declares a record type, unless its name is taken. -/
def insert (s : TypeStore) (t : RecordType) : Except StoreError TypeStore :=
  if h : s.contains t.name then .error (.duplicateType t.name)
  else .ok
    { s with
      types := s.types ++ [t]
      types_distinct := by
        have := not_mem_names_of_not_contains h
        simp only [List.map_append, List.map_cons, List.map_nil]
        exact List.nodup_append.2 ⟨s.types_distinct, by simp, by grind⟩ }

/-- Declares record types one after the other. -/
def insertAll (s : TypeStore) (ts : List RecordType) : Except StoreError TypeStore :=
  ts.foldlM insert s

/-- Adds a free-standing constant. -/
def addConstant (s : TypeStore) (c : Constant) : TypeStore :=
  { s with constants := s.constants ++ [c] }

/-- Adds a source file. -/
def addNativeSource (s : TypeStore) (path code : String) : TypeStore :=
  { s with nativeSources := s.nativeSources ++ [(path, code)] }

/-- The same declarations with other contents under the same names. -/
def withTypes (s : TypeStore) (types : List RecordType)
    (h : types.map (·.name) = s.types.map (·.name)) : TypeStore :=
  { s with types, types_distinct := h ▸ s.types_distinct }

end TypeStore
end CellPack
