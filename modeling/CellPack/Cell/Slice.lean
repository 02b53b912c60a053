import CellPack.Address
import CellPack.IntFormat
import CellPack.Capacity
import CellPack.Cell.Basic
import CellPack.Cell.Builder
/-!
# Reading cells

A slice is what is left to read of a cell. A reading operation is a step on a slice that may fail;
one that takes its bits and then refuses their value has consumed them.
-/

namespace CellPack

/-- The bits and references of a cell that are still unread. -/
structure Slice where
  bits : List Bool
  refs : List Cell
  deriving DecidableEq

/-- A step on a slice, whose position is kept when the step fails. -/
abbrev Load (α : Type) := ExceptT CellError (StateM Slice) α

/-- The slice of all bits and references of a cell. -/
def Cell.toSlice (c : Cell) : Slice := ⟨c.bits, c.refs⟩

namespace Slice

/-- Bits and references left. -/
def remaining (s : Slice) : CellSize := ⟨s.bits.length, s.refs.length⟩

/-- Whether everything has been read. -/
def isEmpty (s : Slice) : Bool := s.bits.isEmpty && s.refs.isEmpty

/-- Takes the next `n` bits. -/
def takeBits (n : Nat) : Load (List Bool) := do
  let s ← get
  if n > s.bits.length then throw (.underflow n s.bits.length)
  set { s with bits := s.bits.drop n }
  return s.bits.take n

/-- Reads one bit. -/
def loadBit : Load Bool := do
  return (← takeBits 1).headD false

/-- Reads an unsigned number of `n` bits that has to fit a machine word. -/
def loadUint (n : Nat) : Load Word := do
  let raw ← takeBits n
  let split := raw.length - 128
  if (raw.take split).any id then throw (.valueOutOfRange n)
  return BitVec.ofNat 128 (Bits.toNat (raw.drop split))

/-- Reads a two's complement of `n` bits that has to fit a machine word. -/
def loadInt (n : Nat) : Load Word := do
  let raw ← takeBits n
  let split := raw.length - 128
  let sign := raw.headD false
  let tail := raw.drop split
  if (raw.take split).any (· != sign) ∨ (split > 0 ∧ tail.headD false != sign) then
    throw (.valueOutOfRange n)
  return BitVec.ofInt 128 (Bits.toInt tail)

/-- Reads a two's complement of `n` bits. -/
def loadBigInt (n : Nat) : Load Int := do
  return Bits.toInt (← takeBits n)

/-- Reads an unsigned number of `n` bits. -/
def loadBigUint (n : Nat) : Load Nat := do
  return Bits.toNat (← takeBits n)

/-- Reads a number of bytes, then a natural number of so many bytes. -/
def loadVarUint (w : VarWidth) : Load Nat := do
  let len ← loadUint w.lenBits
  loadBigUint (8 * len.toNat)

/-- Reads a number of bytes, then a two's complement of so many bytes. -/
def loadVarInt (w : VarWidth) : Load Int := do
  let len ← loadUint w.lenBits
  loadBigInt (8 * len.toNat)

/-- Reads `n` bits as bytes, with zeros after the last bit up to a whole byte. -/
def loadBits (n : Nat) : Load (List UInt8) := do
  return Bits.toBytes (← takeBits n)

/-- Takes the next reference. -/
def loadRef : Load Cell := do
  let s ← get
  match s.refs with
  | [] => throw .refUnderflow
  | c :: rest =>
    set { s with refs := rest }
    return c

/-- Reads an address: a tag, the workchain and the hash. -/
def loadAddress : Load Address := do
  if (← loadUint 2) ≠ 0b10 then throw .invalidAddress
  if ← loadBit then throw .invalidAddress
  let workchain ← loadInt 8
  let hash ← loadBits 256
  match Address.ofParts? workchain.toInt hash with
  | some a => return a
  | none => throw .invalidAddress

end Slice
end CellPack
