import CellPack.Json.Basic
import CellPack.Numeral
/-!
# Written JSON

`Json.compact` writes a value without spaces, `Json.pretty` with one entry per line and two spaces
of indentation. Strings are quoted by `Json.quoted`: quotes, backslashes and control characters are
escaped, everything else stands as it is.
-/

namespace CellPack.Json

/-- A character as it stands inside a quoted text. -/
def escaped (c : Char) : List Char :=
  match c with
  | '"' => ['\\', '"']
  | '\\' => ['\\', '\\']
  | '\n' => ['\\', 'n']
  | '\r' => ['\\', 'r']
  | '\t' => ['\\', 't']
  | c =>
    if c.toNat = 8 then ['\\', 'b']
    else if c.toNat = 12 then ['\\', 'f']
    else if c.toNat < 32 then '\\' :: 'u' :: (Numeral.hex 4 c.toNat).toList
    else [c]

/-- A text between quotes. -/
def quoted (s : String) : String :=
  String.ofList ('"' :: (s.toList.flatMap escaped ++ ['"']))

mutual
/-- The text of a value, without any spaces. -/
def compact : Json → String
  | .null | .unreadable => "null"
  | .bool b => if b then "true" else "false"
  | .int n => toString n
  | .real literal => literal
  | .str s => quoted s
  | .arr items => "[" ++ String.intercalate "," (compactItems items) ++ "]"
  | .obj entries => "\x7b" ++ String.intercalate "," (compactEntries entries) ++ "\x7d"
/-- The texts of the items of an array. -/
def compactItems : List Json → List String
  | [] => []
  | item :: rest => compact item :: compactItems rest
/-- The texts of the entries of an object. -/
def compactEntries : List (String × Json) → List String
  | [] => []
  | (key, value) :: rest => (quoted key ++ ":" ++ compact value) :: compactEntries rest
end

/-- Two spaces per level. -/
def indentation (level : Nat) : String := String.ofList (List.replicate (2 * level) ' ')

/-- Parts on lines of their own between two brackets, or the bare brackets if there are none. -/
def block (level : Nat) (opening closing : String) (parts : List String) : String :=
  if parts.isEmpty then opening ++ closing
  else
    let lines := parts.map fun part => "\n" ++ indentation (level + 1) ++ part
    opening ++ String.intercalate "," lines ++ "\n" ++ indentation level ++ closing

mutual
/-- The text of a value with its entries on lines of their own, below `level` indentations. -/
def prettyAt (level : Nat) : Json → String
  | .arr items => block level "[" "]" (prettyItems (level + 1) items)
  | .obj entries => block level "\x7b" "\x7d" (prettyEntries (level + 1) entries)
  | leaf => compact leaf
/-- The texts of the items of an array. -/
def prettyItems (level : Nat) : List Json → List String
  | [] => []
  | item :: rest => prettyAt level item :: prettyItems level rest
/-- The texts of the entries of an object. -/
def prettyEntries (level : Nat) : List (String × Json) → List String
  | [] => []
  | (key, value) :: rest =>
    (quoted key ++ ": " ++ prettyAt level value) :: prettyEntries level rest
end

/-- The text of a value with its entries on lines of their own. -/
def pretty (j : Json) : String := prettyAt 0 j

end CellPack.Json
