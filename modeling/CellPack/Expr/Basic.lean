import CellPack.Address
import CellPack.FieldType.Basic
import CellPack.Table
/-!
# Constant expressions

Defaults, headers and constants are given as small expressions over literals and named constants.
`ConstValue` is what they evaluate to.
-/

namespace CellPack

/-- An operation on two integers. -/
inductive BinaryOp where
  | add
  | sub
  | mul
  | div
  | shl
  | bitOr
  | bitAnd
  deriving DecidableEq, Repr

/-- A constant expression. -/
inductive Expr where
  | int (value : Int)
  | bool (value : Bool)
  | string (text : String)
  | null
  /-- An address in its written form. -/
  | address (text : String)
  /-- A constant by name. -/
  | const (name : String)
  | neg (operand : Expr)
  | binary (op : BinaryOp) (lhs rhs : Expr)
  deriving DecidableEq, Repr

/-- The value of a constant expression. -/
inductive ConstValue where
  | int (value : Int)
  | bool (value : Bool)
  | string (text : String)
  | null
  | address (value : Address)
  deriving DecidableEq

namespace ConstValue

/-- The name of the kind of value. -/
def kindName : ConstValue → String
  | int _ => "int"
  | bool _ => "bool"
  | string _ => "string"
  | null => "null"
  | address _ => "address"

/-- The integer, if the value is one. -/
def int? : ConstValue → Option Int
  | int v => some v
  | _ => none

end ConstValue

/-- Constants evaluated so far, in order of evaluation. -/
abbrev ConstEnv := Table String ConstValue

end CellPack
