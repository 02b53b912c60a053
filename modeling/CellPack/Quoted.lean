import CellPack.Hidden
import CellPack.Numeral
/-!
# Quoted names

A name between quotes, with every character escaped that would end the quotes or would not show.
-/

namespace CellPack.Quoted

/-- A character between quotes. -/
def escaped (c : Char) : List Char :=
  match c with
  | '"' => ['\\', '"']
  | '\\' => ['\\', '\\']
  | '\n' => ['\\', 'n']
  | '\r' => ['\\', 'r']
  | '\t' => ['\\', 't']
  | c =>
    if c.toNat = 0 then ['\\', '0']
    else if isHidden c then
      ['\\', 'u', '\x7b'] ++ (Numeral.hex 1 c.toNat).toList ++ ['\x7d']
    else [c]

/-- A name between quotes. -/
def quote (s : String) : String := String.ofList ('"' :: (s.toList.flatMap escaped ++ ['"']))

end CellPack.Quoted
