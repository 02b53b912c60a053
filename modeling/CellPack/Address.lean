import CellPack.Numeral
/-!
# Account addresses

A workchain number and a hash of 32 bytes, written `workchain:hash`. `Address.ofText?` reads the
hash in chunks of two bytes of its UTF-8 form.
-/

namespace CellPack

/-- An account address. -/
structure Address where
  /-- The signed workchain number. -/
  workchain : Int
  /-- The account hash. -/
  hash : List UInt8
  workchain_range : -128 ≤ workchain ∧ workchain ≤ 127
  hash_length : hash.length = 32
  deriving DecidableEq

/-- Why a text is no address. -/
inductive AddressError where
  | missingSeparator
  | invalidWorkchain (text : String)
  | invalidHashLength (bytes : Nat)
  | invalidHex
  /-- A chunk of two bytes ends inside a character, and reading cannot go on. -/
  | brokenCharacter
  deriving DecidableEq, Repr

namespace AddressError

/-- The text of the error. -/
def message : AddressError → String
  | missingSeparator => "address must have the form `<workchain>:<64 hex digits>`"
  | invalidWorkchain text => "invalid workchain id `" ++ text ++ "`"
  | invalidHashLength bytes => "account hash must be 64 hex digits, got " ++ toString bytes
  | invalidHex => "invalid hex digit in account hash"
  | brokenCharacter => "account hash cannot be cut inside a character"

end AddressError

namespace Address

/-- An address from parts in range. -/
def ofParts? (workchain : Int) (hash : List UInt8) : Option Address :=
  if h : (-128 ≤ workchain ∧ workchain ≤ 127) ∧ hash.length = 32 then
    some ⟨workchain, hash, h.1, h.2⟩
  else none

/-- The written form. -/
def text (a : Address) : String := toString a.workchain ++ ":" ++ Numeral.hexBytes a.hash

/-- The characters before and after the first colon. -/
def splitColon? : List Char → Option (List Char × List Char)
  | [] => none
  | c :: cs => if c = ':' then some ([], cs) else (splitColon? cs).map fun (l, r) => (c :: l, r)

/-- The number of bytes of a text in UTF-8. -/
def utf8Length (cs : List Char) : Nat := cs.foldr (fun c n => c.utf8Size + n) 0

/-- The byte of two one-byte characters: two hexadecimal digits, or a plus sign and one. -/
def pairByte? (a b : Char) : Option UInt8 := do
  let low ← Numeral.hexDigit? b
  if a = '+' then some (UInt8.ofNat low)
  else
    let high ← Numeral.hexDigit? a
    some (UInt8.ofNat (16 * high + low))

/-- The bytes of a hash, chunk by chunk. -/
def hashBytes : List Char → Except AddressError (List UInt8)
  | [] => .ok []
  | [c] => .error (if c.utf8Size = 2 then .invalidHex else .brokenCharacter)
  | a :: b :: rest =>
    if a.utf8Size = 2 then .error .invalidHex
    else if a.utf8Size ≠ 1 ∨ b.utf8Size ≠ 1 then .error .brokenCharacter
    else match pairByte? a b with
      | none => .error .invalidHex
      | some byte => (byte :: ·) <$> hashBytes rest

/-- The address of its written form. -/
def ofText? (s : String) : Except AddressError Address := do
  let some (left, right) := splitColon? s.toList | .error .missingSeparator
  let bad := AddressError.invalidWorkchain (String.ofList left)
  let some workchain := Numeral.signed? left | .error bad
  if workchain < -128 ∨ 127 < workchain then .error bad
  if utf8Length right ≠ 64 then .error (.invalidHashLength (utf8Length right))
  let hash ← hashBytes right
  match ofParts? workchain hash with
  | some a => .ok a
  | none => .error .invalidHex

end Address
end CellPack
