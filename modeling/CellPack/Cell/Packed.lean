import CellPack.Cell.Stream
/-!
# Packed cells

A cell in memory: its bits fill bytes from the most significant bit on, and zeros fill up the last
byte. A packed builder takes its bits one by one. A bit that stands at the start of a byte opens a
byte of zeros, and a set bit is set there. The operations take the bits of a word by shifts, and
those of greater integers from their bytes.
-/

namespace CellPack

/-- A tree of packed cells. -/
inductive PackedCell where
  | mk (data : List UInt8) (bitCount : Nat) (refs : List PackedCell)

/-- A packed cell being written. -/
@[ext]
structure PackedBuilder where
  data : List UInt8 := []
  bitCount : Nat := 0
  refs : List PackedCell := []

/-- A step on a packed builder, which is kept when the step fails. -/
abbrev PackedWrite (α : Type) := ExceptT CellError (StateM PackedBuilder) α

/-! ## Bytes -/

/-- The byte with the bit of this position alone, counted from the most significant one. -/
def bitMask (index : Nat) : UInt8 := 0x80 >>> UInt8.ofNat (index % 8)

/-- A bit of a byte string by its position. -/
def bitAt (data : List UInt8) (index : Nat) : Bool := data.getD (index / 8) 0 &&& bitMask index ≠ 0

/-- The shortest bytes of a natural number, at least one. -/
def naturalBytes (v : Nat) : List UInt8 :=
  Bits.wholeBytes (Bits.ofNat (8 * max 1 ((bitLength v + 7) / 8)) v)

/-- The shortest bytes of the two's complement of an integer, at least one. -/
def signedBytes (v : Int) : List UInt8 :=
  Bits.wholeBytes (Bits.ofInt (8 * (IntFormat.magnitudeBits v / 8 + 1)) v)

/-- A bit of a byte string by its position from the end. In front of the string stand fill bytes. -/
def alignedBit (bytes : List UInt8) (fill : UInt8) (index : Nat) : Bool :=
  let byte :=
    if 1 + index / 8 ≤ bytes.length then bytes.getD (bytes.length - (1 + index / 8)) 0 else fill
  byte &&& (1 <<< UInt8.ofNat (index % 8)) ≠ 0

/-! ## Writing -/

namespace PackedBuilder

/-- The finished cell. -/
def toCell (p : PackedBuilder) : PackedCell := .mk p.data p.bitCount p.refs

/-- The bits written so far. -/
def bits (p : PackedBuilder) : List Bool := (List.range p.bitCount).map (bitAt p.data)

/-- The builder with one more bit. -/
def withBit (p : PackedBuilder) (bit : Bool) : PackedBuilder :=
  let data := if p.bitCount % 8 = 0 then p.data ++ [0] else p.data
  { p with
    data := if bit then data.modify (data.length - 1) (· ||| bitMask p.bitCount) else data
    bitCount := p.bitCount + 1 }

/-- Fails unless there is room for `n` more bits. -/
def ensureBits (n : Nat) : PackedWrite Unit := do
  let available := maxCellBits - (← get).bitCount
  if n > available then throw (.bitOverflow n available)

/-- Appends a bit that there is room for. -/
def pushBit (bit : Bool) : PackedWrite Unit := modify (·.withBit bit)

/-- Appends `n` bits, which are counted from the last one. -/
def pushDown (n : Nat) (bit : Nat → Bool) : PackedWrite Unit :=
  (List.range n).reverse.forM fun i => pushBit (bit i)

/-- Writes one bit. -/
def storeBit (bit : Bool) : PackedWrite Unit := do
  ensureBits 1
  pushBit bit

/-- Writes an unsigned word in `n` bits. -/
def storeUint (v : Word) (n : Nat) : PackedWrite Unit := do
  if n < 128 ∧ v >>> n ≠ 0 then throw (.valueOutOfRange n)
  ensureBits n
  pushDown n fun i => i < 128 ∧ (v >>> i) &&& 1 = 1

/-- Whether the integer of a word is in the range of a two's complement of `n` bits. -/
def fitsSigned (v : Word) (n : Nat) : Bool :=
  if n = 0 then false
  else if 128 ≤ n then true
  else
    let half : Int := (1 <<< (n - 1) : Nat)
    v.toInt < half ∧ -half ≤ v.toInt

/-- Writes the two's complement of a signed word in `n` bits. -/
def storeInt (v : Word) (n : Nat) : PackedWrite Unit := do
  if !fitsSigned v n then throw (.valueOutOfRange n)
  ensureBits n
  pushDown n fun i => if i ≥ 128 then v.toInt < 0 else v.sshiftRight i &&& 1 = 1

/-- Writes the two's complement of an integer of any size in `n` bits. -/
def storeBigInt (v : Int) (n : Nat) : PackedWrite Unit := do
  if n = 0 ∨ !(IntFormat.int n).fits v then throw (.valueOutOfRange n)
  ensureBits n
  pushDown n (alignedBit (signedBytes v) (if v < 0 then 0xff else 0))

/-- Writes a natural number of any size in `n` bits. -/
def storeBigUint (v : Nat) (n : Nat) : PackedWrite Unit := do
  if bitLength v > n then throw (.valueOutOfRange n)
  ensureBits n
  pushDown n (alignedBit (naturalBytes v) 0)

/-- Writes a natural number as its number of bytes and those bytes. -/
def storeVarUint (v : Nat) (w : VarWidth) : PackedWrite Unit := do
  let len := (bitLength v + 7) / 8
  if len > w.maxBytes then throw (.valueOutOfRange (8 * w.maxBytes))
  ensureBits (w.lenBits + 8 * len)
  storeUint (BitVec.ofNat 128 len) w.lenBits
  storeBigUint v (8 * len)

/-- Writes an integer as its number of bytes and those bytes in two's complement. -/
def storeVarInt (v : Int) (w : VarWidth) : PackedWrite Unit := do
  match Builder.signedBytes? v w with
  | none => throw (.valueOutOfRange (8 * w.maxBytes))
  | some len =>
    ensureBits (w.lenBits + 8 * len)
    storeUint (BitVec.ofNat 128 len) w.lenBits
    if len > 0 then storeBigInt v (8 * len)

/-- Writes the first `n` bits of a byte string. -/
def storeBits (bytes : List UInt8) (n : Nat) : PackedWrite Unit := do
  if n > 8 * bytes.length then throw (.valueOutOfRange n)
  ensureBits n
  (List.range n).forM fun i => pushBit (bitAt bytes i)

/-- Writes a reference. -/
def storeRef (c : PackedCell) : PackedWrite Unit := do
  if (← get).refs.length ≥ maxCellRefs then throw .refOverflow
  modify fun p => { p with refs := p.refs ++ [c] }

/-- Writes an address: a tag, the workchain and the hash. -/
def storeAddress (a : Address) : PackedWrite Unit := do
  ensureBits addressBits
  storeUint 0b10 2
  storeBit false
  storeInt (BitVec.ofInt 128 a.workchain) 8
  storeBits a.hash 256

end PackedBuilder

/-! ## Packing -/

namespace Cell

mutual
/-- The packed form of a tree. -/
def pack : Cell → PackedCell
  | mk bits refs => .mk (Bits.toBytes bits) bits.length (packAll refs)
/-- The packed forms of several trees. -/
def packAll : List Cell → List PackedCell
  | [] => []
  | c :: rest => pack c :: packAll rest
end

end Cell

/-- The packed form of a builder. -/
def Builder.pack (b : Builder) : PackedBuilder :=
  ⟨Bits.toBytes b.bits, b.bits.length, Cell.packAll b.refs⟩

/-- Writes a value of a kind to a packed builder. -/
def ItemKind.storePacked : (k : ItemKind) → k.Carrier → PackedWrite Unit
  | bit, b => PackedBuilder.storeBit b
  | uint n, w => PackedBuilder.storeUint w n
  | int n, w => PackedBuilder.storeInt w n
  | bigUint n, v => PackedBuilder.storeBigUint v n
  | bigInt n, v => PackedBuilder.storeBigInt v n
  | varUint w, v => PackedBuilder.storeVarUint v w
  | varInt w, v => PackedBuilder.storeVarInt v w
  | bits n, bytes => PackedBuilder.storeBits bytes n
  | address, a => PackedBuilder.storeAddress a
  | ref, c => PackedBuilder.storeRef c.pack

namespace Item

/-- Writes an item to a packed builder. -/
def storePacked (i : Item) : PackedWrite Unit := i.kind.storePacked i.value

/-- The builder after all of these items in order, whether each could be written or not. -/
def tryAll (items : List Item) : Builder := items.foldl (fun b i => (i.store.run b).2) {}

/-- The packed builder after all of these items in order, whether each could be written or not. -/
def tryAllPacked (items : List Item) : PackedBuilder :=
  items.foldl (fun p i => (i.storePacked.run p).2) {}

end Item
end CellPack
