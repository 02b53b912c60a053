import CellPack.Expr.Basic
import CellPack.Json.Basic
import CellPack.Numeral
/-!
# Constant expressions in JSON

An expression is an object whose only key names its form. An integer is a JSON number, or a text
when it needs more than 64 bits.
-/

namespace CellPack

namespace BinaryOp

/-- The operations by name. -/
def names : List (String × BinaryOp) :=
  [("add", add), ("sub", sub), ("mul", mul), ("div", div), ("shl", shl), ("bit_or", bitOr),
    ("bit_and", bitAnd)]

/-- The name of an operation. -/
def name : BinaryOp → String
  | add => "add"
  | sub => "sub"
  | mul => "mul"
  | div => "div"
  | shl => "shl"
  | bitOr => "bit_or"
  | bitAnd => "bit_and"

end BinaryOp

namespace Expr

/-- An integer literal: a number if it fits a signed 64-bit word, a text otherwise. -/
def intToJson (v : Int) : Json :=
  if -9223372036854775808 ≤ v ∧ v ≤ 9223372036854775807 then .int v else .str (toString v)

/-- An integer literal: a number of 64 bits, signed or unsigned, or a text. -/
def intOfJson? : Json → Option Int
  | .int v => if -9223372036854775808 ≤ v ∧ v ≤ 18446744073709551615 then some v else none
  | .str s => Numeral.grouped? s.toList
  | _ => none

/-- The JSON form. -/
def toJson : Expr → Json
  | int v => .obj [("int", intToJson v)]
  | bool b => .obj [("bool", .bool b)]
  | string s => .obj [("string", .str s)]
  | null => .str "null"
  | address text => .obj [("address", .str text)]
  | const name => .obj [("const", .str name)]
  | neg operand => .obj [("neg", operand.toJson)]
  | binary op lhs rhs =>
    .obj [("binary", .obj [("op", .str op.name), ("lhs", lhs.toJson), ("rhs", rhs.toJson)])]

/-- The expression of its JSON form, nested at most `depth` deep. -/
def ofJson? : Nat → Json → Option Expr
  | _, .str "null" => some null
  | d + 1, .obj [(form, body)] =>
    match form, body with
    | "null", .null => some null
    | "int", body => int <$> intOfJson? body
    | "bool", .bool b => some (bool b)
    | "string", .str s => some (string s)
    | "address", .str text => some (address text)
    | "const", .str name => some (const name)
    | "neg", body => neg <$> ofJson? d body
    | "binary", body =>
      match d with
      | 0 => none
      | d + 1 => do
        let [some op, some lhs, some rhs] ← Json.record? ["op", "lhs", "rhs"] body | none
        let op ← Json.choice? d BinaryOp.names op
        let lhs ← ofJson? d lhs
        let rhs ← ofJson? d rhs
        some (binary op lhs rhs)
    | _, _ => none
  | _, _ => none

end Expr
end CellPack
