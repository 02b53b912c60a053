import CellPack.Expr.Basic
import CellPack.Json.Printer
import CellPack.Procedure.Body
/-!
# Literals

Constant values as they are written in generated code, and as bindings of other programs write
them.
-/

namespace CellPack

/-- Whether a character can stand in a literal as it is: printable ASCII, no quote or backslash. -/
def isPlainChar (c : Char) : Bool :=
  32 ≤ c.toNat ∧ c.toNat < 127 ∧ c ≠ '"' ∧ c ≠ '\\'

/-- A text in code: between quotes as it is, or its bytes in hexadecimal with a letter behind. -/
def textLiteral (s : String) : String :=
  if s.toList.all isPlainChar then "\"" ++ s ++ "\""
  else "\"" ++ Numeral.hexBytes s.toUTF8.toList ++ "\"s"

namespace ConstValue

/-- The value as an expression in code. -/
def codeLiteral : ConstValue → Line
  | int v => .plain (toString v)
  | bool b => .plain (if b then "true" else "false")
  | string s => .plain (textLiteral s)
  | null => .plain "null()"
  | address a =>
    .around "" ProcName.makeAddress
      ("(" ++ toString a.workchain ++ ", 0x" ++ Numeral.hexBytes a.hash ++ ")")

/-- The value as bindings write it. -/
def bindingLiteral : ConstValue → String
  | int v => toString v ++ "n"
  | bool b => if b then "true" else "false"
  | string s => Json.quoted s
  | null => "null"
  | address a => "address(\"" ++ a.text ++ "\")"

end ConstValue
end CellPack
