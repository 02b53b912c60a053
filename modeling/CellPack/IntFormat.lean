import CellPack.Numeral
/-!
# Integer formats

How an integer is written in a cell: with a fixed number of bits, or with a length prefix and as
few bytes as it needs. `fits` decides by bit lengths whether a format can hold an integer.
-/

namespace CellPack

/-- The number of binary digits of a natural number, zero for zero. -/
def bitLength (n : Nat) : Nat := if n = 0 then 0 else n.log2 + 1

/-- The length prefix of a variable-length integer, named by the number of its values. -/
inductive VarWidth where
  | w16
  | w32
  deriving DecidableEq, Repr

namespace VarWidth

/-- Bits of the length prefix. -/
def lenBits : VarWidth → Nat
  | w16 => 4
  | w32 => 5

/-- The greatest number of bytes that the prefix can announce. -/
def maxBytes (w : VarWidth) : Nat := (1 <<< w.lenBits) - 1

/-- The number in the name of the format. -/
def suffix : VarWidth → Nat
  | w16 => 16
  | w32 => 32

/-- The prefix named by a number. -/
def ofSuffix? : List Char → Option VarWidth
  | ['1', '6'] => some w16
  | ['3', '2'] => some w32
  | _ => none

end VarWidth

/-- The format of an integer in a cell. -/
inductive IntFormat where
  | int (bits : Nat)
  | uint (bits : Nat)
  | varInt (width : VarWidth)
  | varUint (width : VarWidth)
  deriving DecidableEq, Repr

namespace IntFormat

/-- The widest signed integer, the format of an integer without a stated one. -/
def widest : IntFormat := int 257

/-- Amounts of money: an unsigned integer of at most 15 bytes. -/
def coins : IntFormat := varUint .w16

/-- Whether negative integers have a form. -/
def signed : IntFormat → Bool
  | int _ | varInt _ => true
  | uint _ | varUint _ => false

/-- The greatest number of bits that an integer takes. -/
def maxBits : IntFormat → Nat
  | int n | uint n => n
  | varInt w | varUint w => w.lenBits + 8 * w.maxBytes

/-- The bits of a number in two's complement without its sign bit. -/
def magnitudeBits : Int → Nat
  | .ofNat n => bitLength n
  | .negSucc n => bitLength n

/-- Whether an integer has a two's complement of `bits` bits. -/
def fitsSigned (bits : Nat) (v : Int) : Bool :=
  if bits = 0 then v = 0 else magnitudeBits v < bits

/-- Whether an integer is a binary number of `bits` digits. -/
def fitsUnsigned (bits : Nat) (v : Int) : Bool :=
  0 ≤ v ∧ bitLength v.toNat ≤ bits

/-- Whether an integer has a form in this format. -/
def fits (f : IntFormat) (v : Int) : Bool :=
  match f with
  | int n => fitsSigned n v
  | uint n => fitsUnsigned n v
  | varInt w => fitsSigned (8 * w.maxBytes) v
  | varUint w => fitsUnsigned (8 * w.maxBytes) v

/-- The name of the format. -/
def text : IntFormat → String
  | int n => "int" ++ toString n
  | uint n => "uint" ++ toString n
  | varInt w => "varint" ++ toString w.suffix
  | varUint .w16 => "coins"
  | varUint w => "varuint" ++ toString w.suffix

/-- A width from 1 to `max`. -/
def width? (max : Nat) (ds : List Char) : Option Nat := do
  let n ← Numeral.unsigned? ds
  if n = 0 ∨ n > max then none else some n

/-- The format of a name. Variable formats are looked for first. -/
def ofChars? : List Char → Option IntFormat
  | ['c', 'o', 'i', 'n', 's'] => some coins
  | 'v' :: 'a' :: 'r' :: 'u' :: 'i' :: 'n' :: 't' :: ds => (VarWidth.ofSuffix? ds).map varUint
  | 'v' :: 'a' :: 'r' :: 'i' :: 'n' :: 't' :: ds => (VarWidth.ofSuffix? ds).map varInt
  | 'u' :: 'i' :: 'n' :: 't' :: ds => (width? 256 ds).map uint
  | 'i' :: 'n' :: 't' :: ds => (width? 257 ds).map int
  | _ => none

/-- The format of a name. -/
def ofText? (s : String) : Option IntFormat := ofChars? s.toList

/-- What is said about a name that no format has. -/
def unknownMessage (s : String) : String := "unknown integer format `" ++ s ++ "`"

end IntFormat
end CellPack
