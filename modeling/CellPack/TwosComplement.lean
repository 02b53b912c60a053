/-!
# Bitwise operations on integers

`bitAnd` and `bitOr` act on the infinite two's complement, where `-1 - n` has the complementary
bits of `n`.
-/

namespace CellPack.TwosComplement

/-- The bits of the first number that the second does not have. -/
def without (m n : Nat) : Nat := Nat.bitwise (fun a b => a && !b) m n

/-- The common bits of two integers. -/
def bitAnd : Int → Int → Int
  | .ofNat m, .ofNat n => .ofNat (m &&& n)
  | .ofNat m, .negSucc n => .ofNat (without m n)
  | .negSucc m, .ofNat n => .ofNat (without n m)
  | .negSucc m, .negSucc n => .negSucc (m ||| n)

/-- The bits of either of two integers. -/
def bitOr : Int → Int → Int
  | .ofNat m, .ofNat n => .ofNat (m ||| n)
  | .ofNat m, .negSucc n => .negSucc (without n m)
  | .negSucc m, .ofNat n => .negSucc (without m n)
  | .negSucc m, .negSucc n => .negSucc (m &&& n)

end CellPack.TwosComplement
