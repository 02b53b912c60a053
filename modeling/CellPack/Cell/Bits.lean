/-!
# Bit strings

Numbers and bytes as lists of bits, most significant bit first.
-/

namespace CellPack.Bits

/-- The low `n` bits of a natural number. -/
def ofNat : Nat → Nat → List Bool
  | 0, _ => []
  | n + 1, v => v.testBit n :: ofNat n v

/-- The low `n` bits of the two's complement of an integer. -/
def ofInt (n : Nat) (v : Int) : List Bool := ofNat n (BitVec.ofInt n v).toNat

/-- The binary number that the bits spell. -/
def toNat (bits : List Bool) : Nat := bits.foldl (fun acc b => 2 * acc + b.toNat) 0

/-- The integer whose two's complement the bits are. -/
def toInt (bits : List Bool) : Int := (BitVec.ofNat bits.length (toNat bits)).toInt

/-- The eight bits of a byte. -/
def ofByte (b : UInt8) : List Bool := ofNat 8 b.toNat

/-- The bits of a byte string. -/
def ofBytes (bytes : List UInt8) : List Bool := bytes.flatMap ofByte

/-- The bytes that the bits fill completely; up to seven last bits are left out. -/
def wholeBytes : List Bool → List UInt8
  | a :: b :: c :: d :: e :: f :: g :: h :: rest =>
    UInt8.ofNat (toNat [a, b, c, d, e, f, g, h]) :: wholeBytes rest
  | _ => []

/-- The bits as bytes, with zeros after the last bit up to a whole byte. -/
def toBytes (bits : List Bool) : List UInt8 :=
  wholeBytes (bits ++ List.replicate (8 * ((bits.length + 7) / 8) - bits.length) false)

/-- The upper-case digits of the bits in groups of four. -/
def hexDigits : List Bool → List Char
  | a :: b :: c :: d :: rest => (Nat.digitChar (toNat [a, b, c, d])).toUpper :: hexDigits rest
  | _ => []

/--
The bits in hexadecimal. An incomplete last digit is completed by a set bit and zeros, and an
underscore says so.
-/
def hexText (bits : List Bool) : List Char :=
  if bits.length % 4 = 0 then hexDigits bits
  else hexDigits (bits ++ true :: List.replicate (3 - bits.length % 4) false) ++ ['_']

end CellPack.Bits
