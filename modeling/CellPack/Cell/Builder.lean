import CellPack.Address
import CellPack.IntFormat
import CellPack.Capacity
import CellPack.Cell.Basic
/-!
# Writing cells

A builder takes bits and references up to the capacity of a cell. A writing operation is a step on
a builder that may fail; each one checks the range of its value and the room for all of its bits
before it writes the first one, so a failing step leaves the builder as it was.
-/

namespace CellPack

/-- A cell being written. -/
structure Builder where
  bits : List Bool := []
  refs : List Cell := []
  deriving Inhabited, DecidableEq

/-- A step on a builder, which is kept when the step fails. -/
abbrev Write (α : Type) := ExceptT CellError (StateM Builder) α

/-- A machine word, signed or unsigned as the operation says. -/
abbrev Word := BitVec 128

namespace Builder

/-- The finished cell. -/
def toCell (b : Builder) : Cell := .mk b.bits b.refs

/-- Bits and references written so far. -/
def used (b : Builder) : CellSize := ⟨b.bits.length, b.refs.length⟩

/-- Fails unless there is room for `n` more bits. -/
def ensureBits (n : Nat) : Write Unit := do
  let available := maxCellBits - (← get).bits.length
  if n > available then throw (.bitOverflow n available)

/-- Appends bits that there is room for. -/
def push (bits : List Bool) : Write Unit :=
  modify fun b => { b with bits := b.bits ++ bits }

/-- Writes one bit. -/
def storeBit (bit : Bool) : Write Unit := do
  ensureBits 1
  push [bit]

/-- Writes an unsigned word in `n` bits. -/
def storeUint (v : Word) (n : Nat) : Write Unit := do
  if n < 128 ∧ v.toNat >>> n ≠ 0 then throw (.valueOutOfRange n)
  ensureBits n
  push ((List.range n).reverse.map v.getLsbD)

/-- Whether a signed word has a two's complement of `n` bits: its low bits have the same value. -/
def wordFits (v : Word) (n : Nat) : Bool :=
  if n = 0 then false
  else if 128 ≤ n then true
  else (v.setWidth n).toInt = v.toInt

/-- Writes the two's complement of a signed word in `n` bits. -/
def storeInt (v : Word) (n : Nat) : Write Unit := do
  if !wordFits v n then throw (.valueOutOfRange n)
  ensureBits n
  push ((List.range n).reverse.map fun i => if i < 128 then v.getLsbD i else v.msb)

/-- Writes the two's complement of an integer of any size in `n` bits. -/
def storeBigInt (v : Int) (n : Nat) : Write Unit := do
  if n = 0 ∨ !(IntFormat.int n).fits v then throw (.valueOutOfRange n)
  ensureBits n
  push (Bits.ofInt n v)

/-- Writes a natural number of any size in `n` bits. -/
def storeBigUint (v : Nat) (n : Nat) : Write Unit := do
  if bitLength v > n then throw (.valueOutOfRange n)
  ensureBits n
  push (Bits.ofNat n v)

/-- Writes a natural number as its number of bytes and those bytes. -/
def storeVarUint (v : Nat) (w : VarWidth) : Write Unit := do
  let len := (bitLength v + 7) / 8
  if len > w.maxBytes then throw (.valueOutOfRange (8 * w.maxBytes))
  ensureBits (w.lenBits + 8 * len)
  storeUint (BitVec.ofNat 128 len) w.lenBits
  storeBigUint v (8 * len)

/-- The least number of bytes that hold the two's complement of an integer, none for zero. -/
def signedBytes? (v : Int) (w : VarWidth) : Option Nat :=
  (List.range (w.maxBytes + 1)).find? fun len =>
    if len = 0 then v = 0 else (IntFormat.int (8 * len)).fits v

/-- Writes an integer as its number of bytes and those bytes in two's complement. -/
def storeVarInt (v : Int) (w : VarWidth) : Write Unit := do
  match signedBytes? v w with
  | none => throw (.valueOutOfRange (8 * w.maxBytes))
  | some len =>
    ensureBits (w.lenBits + 8 * len)
    storeUint (BitVec.ofNat 128 len) w.lenBits
    if len > 0 then storeBigInt v (8 * len)

/-- Writes the first `n` bits of a byte string. -/
def storeBits (bytes : List UInt8) (n : Nat) : Write Unit := do
  if n > 8 * bytes.length then throw (.valueOutOfRange n)
  ensureBits n
  push ((Bits.ofBytes bytes).take n)

/-- Writes a reference. -/
def storeRef (c : Cell) : Write Unit := do
  if (← get).refs.length ≥ maxCellRefs then throw .refOverflow
  modify fun b => { b with refs := b.refs ++ [c] }

/-- Writes an address: a tag, the workchain and the hash. -/
def storeAddress (a : Address) : Write Unit := do
  ensureBits addressBits
  storeUint 0b10 2
  storeBit false
  storeInt (BitVec.ofInt 128 a.workchain) 8
  storeBits a.hash 256

end Builder
end CellPack
