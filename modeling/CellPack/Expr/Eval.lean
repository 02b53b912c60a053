import CellPack.Expr.Basic
import CellPack.TwosComplement
/-!
# Evaluation of constant expressions

`Expr.fold` computes over the integers and refuses every literal and every result of an operation
that has no 257-bit two's complement. `Expr.evaluate` also checks the result against a field type.
-/

namespace CellPack

/-- Why an expression has no value of its type. -/
inductive EvalError where
  | unknownConstant (name : String)
  | typeMismatch (expected found : String)
  | overflow
  | divisionByZero
  | outOfRange (value : Int) (format : IntFormat)
  | invalidAddress (text : String)
  /-- An address whose hash cannot be cut into bytes; evaluation cannot go on. -/
  | brokenAddress (text : String)
  deriving DecidableEq, Repr

namespace EvalError

/-- The text of the error. -/
def message : EvalError → String
  | unknownConstant name => "unknown constant `" ++ name ++ "`"
  | typeMismatch expected found =>
    "expected a value of type `" ++ expected ++ "`, found " ++ found
  | overflow => "integer overflow in constant expression"
  | divisionByZero => "division by zero in constant expression"
  | outOfRange value format =>
    "value " ++ toString value ++ " does not fit `" ++ format.text ++ "`"
  | invalidAddress text => "invalid address literal `" ++ text ++ "`"
  | brokenAddress text => "address literal `" ++ text ++ "` breaks a character"

end EvalError

/-- A way to evaluate an expression against a type, given the constants evaluated before. -/
abbrev Evaluator := Expr → FieldType → ConstEnv → Except EvalError ConstValue

/-- An integer within the widest format. -/
def bounded (v : Int) : Except EvalError Int :=
  if IntFormat.widest.fits v then .ok v else .error .overflow

/-- The result of an operation, of any size. Division rounds down. -/
def BinaryOp.apply (op : BinaryOp) (a b : Int) : Except EvalError Int :=
  match op with
  | add => .ok (a + b)
  | sub => .ok (a - b)
  | mul => .ok (a * b)
  | div => if b = 0 then .error .divisionByZero else .ok (a.fdiv b)
  | shl => if 0 ≤ b ∧ b ≤ 257 then .ok (a <<< b.toNat) else .error .overflow
  | bitOr => .ok (TwosComplement.bitOr a b)
  | bitAnd => .ok (TwosComplement.bitAnd a b)

/-- The integer of a value that has to be one. -/
def ConstValue.expectInt : ConstValue → Except EvalError Int
  | .int v => .ok v
  | other => .error (.typeMismatch "int" other.kindName)

/-- The value of an address literal. -/
def addressLiteral (text : String) : Except EvalError ConstValue :=
  match Address.ofText? text with
  | .ok a => .ok (.address a)
  | .error .brokenCharacter => .error (.brokenAddress text)
  | .error _ => .error (.invalidAddress text)

/-- The value of an expression, whatever its type. -/
def Expr.fold (env : ConstEnv) : Expr → Except EvalError ConstValue
  | int v => .int <$> bounded v
  | bool b => .ok (.bool b)
  | string s => .ok (.string s)
  | null => .ok .null
  | address text => addressLiteral text
  | const name =>
    match Table.get? env name with
    | some v => .ok v
    | none => .error (.unknownConstant name)
  | neg operand => do
    let v ← (← operand.fold env).expectInt
    .int <$> bounded (-v)
  | binary op lhs rhs => do
    let a ← (← lhs.fold env).expectInt
    let b ← (← rhs.fold env).expectInt
    .int <$> (op.apply a b >>= bounded)

/-- A value that belongs to a type: `null` is also allowed for optional values and maps. -/
def ConstValue.check (value : ConstValue) : FieldType → Except EvalError ConstValue
  | .optional inner => if value = .null then .ok value else value.check inner
  | ty =>
    match ty, value with
    | .map _ _, .null | .bool, .bool _ | .string, .string _ | .address, .address _ => .ok value
    | .int format, .int v => if format.fits v then .ok value else .error (.outOfRange v format)
    | _, _ => .error (.typeMismatch ty.text value.kindName)

/-- The value of an expression as a value of a type. -/
def Expr.evaluate : Evaluator := fun e ty env => do
  let v ← e.fold env
  v.check ty

end CellPack
