/-!
# Decimal numerals

Reading of decimal digits out of a list of characters. `nat?` takes a nonempty run of digits,
`unsigned?` and `signed?` allow one sign in front, and `grouped?` also allows underscores after
the first digit, as long constants are written.
-/

namespace CellPack.Numeral

/-- The value of a nonempty run of decimal digits. -/
def nat? (ds : List Char) : Option Nat :=
  if ds ≠ [] ∧ ds.all Char.isDigit then some (Nat.ofDigitChars 10 ds 0) else none

/-- A run of digits after at most one plus sign. -/
def unsigned? : List Char → Option Nat
  | '+' :: ds => nat? ds
  | ds => nat? ds

/-- A run of digits after at most one sign. -/
def signed? : List Char → Option Int
  | '+' :: ds => (nat? ds).map Int.ofNat
  | '-' :: ds => (nat? ds).map fun n => -Int.ofNat n
  | ds => (nat? ds).map Int.ofNat

/-- A digit, then digits that may be grouped by underscores. -/
def groupedNat? : List Char → Option Nat
  | [] => none
  | d :: ds => if d = '_' then none else nat? (d :: ds.filter (· ≠ '_'))

/-- An integer of any size: at most one sign, then digits that may be grouped by underscores. -/
def grouped? : List Char → Option Int
  | '+' :: ds => (groupedNat? ds).map Int.ofNat
  | '-' :: ds => (groupedNat? ds).map fun n => -Int.ofNat n
  | ds => (groupedNat? ds).map Int.ofNat

/-- The value of a hexadecimal digit of either case. -/
def hexDigit? (c : Char) : Option Nat :=
  if '0' ≤ c ∧ c ≤ '9' then some (c.toNat - 48)
  else if 'a' ≤ c ∧ c ≤ 'f' then some (c.toNat - 87)
  else if 'A' ≤ c ∧ c ≤ 'F' then some (c.toNat - 55)
  else none

/-- The lower-case hexadecimal digit of a number below 16. -/
def hexDigit (n : Nat) : Char := Nat.digitChar n

/-- A number in lower-case hexadecimal, with at least `width` digits. -/
def hex (width n : Nat) : String :=
  let ds := Nat.toDigits 16 n
  String.ofList (List.replicate (width - ds.length) '0' ++ ds)

/-- Bytes as pairs of lower-case hexadecimal digits. -/
def hexBytes (bytes : List UInt8) : String :=
  String.ofList (bytes.flatMap fun b => [hexDigit (b.toNat / 16), hexDigit (b.toNat % 16)])

end CellPack.Numeral
