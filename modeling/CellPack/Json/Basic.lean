/-!
# JSON values

The tree of a JSON text. Object entries keep their order and may repeat a key. A number written
with a fraction or an exponent keeps its text, since nothing here computes with it. A leaf that can
be skipped but not read (a string with an unpaired surrogate, a number beyond the range of a
double) is `unreadable`.
-/

namespace CellPack

/-- A JSON value. -/
inductive Json where
  | null
  | bool (value : Bool)
  | int (value : Int)
  | real (literal : String)
  | str (text : String)
  | arr (items : List Json)
  | obj (entries : List (String × Json))
  | unreadable
  deriving Inhabited

namespace Json

/-- The deepest nesting of brackets that is decoded. -/
def maxDepth : Nat := 127

mutual
/-- Whether a value holds no unreadable leaf and nests its brackets at most `depth` deep. -/
def readable : Nat → Json → Bool
  | _, .unreadable => false
  | 0, .arr _ => false
  | 0, .obj _ => false
  | d + 1, .arr items => readableItems d items
  | d + 1, .obj entries => readableEntries d entries
  | _, _ => true
/-- Whether all items of a list are readable. -/
def readableItems : Nat → List Json → Bool
  | _, [] => true
  | d, item :: rest => readable d item && readableItems d rest
/-- Whether the values of all entries are readable. -/
def readableEntries : Nat → List (String × Json) → Bool
  | _, [] => true
  | d, (_, value) :: rest => readable d value && readableEntries d rest
end

/-- The value of a key in an object, or of the last such entry if the key is repeated. -/
def get? (key : String) : Json → Option Json
  | .obj entries => (entries.reverse.find? (·.1 = key)).map (·.2)
  | _ => none

/-- The values of one key of an object, in order. -/
def valuesOf (key : String) (entries : List (String × Json)) : List Json :=
  entries.filterMap fun (k, v) => if k = key then some v else none

/-- One key of a record: its value if present, and a failure if it is given more than once. -/
def single? (entries : List (String × Json)) (key : String) : Option (Option Json) :=
  match valuesOf key entries with
  | [] => some none
  | [v] => some (some v)
  | _ => none

/--
The fields of a record, each present or absent. A record is an object, whose other keys are
ignored, or an array that gives its fields in order and may stop early.
-/
def record? (keys : List String) : Json → Option (List (Option Json))
  | .obj entries => keys.mapM (single? entries)
  | .arr items =>
    if items.length ≤ keys.length then
      some (items.map some ++ List.replicate (keys.length - items.length) none)
    else none
  | _ => none

/-- A decoded text. -/
def text? : Json → Option String
  | .str s => some s
  | _ => none

/-- Items of an array, each decoded by `decode`. -/
def list? {α : Type} (decode : Json → Option α) : Json → Option (List α)
  | .arr items => items.mapM decode
  | _ => none

/-- `null` as nothing, anything else by `decode`. -/
def nullable? {α : Type} (decode : Json → Option α) : Json → Option (Option α)
  | .null => some none
  | j => (decode j).map some

/-- An absent field takes its default, a present one is decoded. -/
def defaulting? {α : Type} (decode : Json → Option α) (default : α) : Option Json → Option α
  | none => some default
  | some j => decode j

/-- A choice among names, written as a text or as an object with that one key and `null`. -/
def choice? {α : Type} (depth : Nat) (options : List (String × α)) : Json → Option α
  | .str s => (options.find? (·.1 = s)).map (·.2)
  | .obj [(k, .null)] => if depth = 0 then none else (options.find? (·.1 = k)).map (·.2)
  | _ => none

end Json
end CellPack
