import CellPack.Cell.Builder
import CellPack.Cell.Slice
/-!
# Streams of items

An item is one thing that a cell can hold: a value of some kind and width. Items are written one
behind the other, and read in the same order by their kinds alone.
-/

namespace CellPack

/-- A kind of thing that a cell can hold, with its width. -/
inductive ItemKind where
  | bit
  | uint (n : Nat)
  | int (n : Nat)
  | bigUint (n : Nat)
  | bigInt (n : Nat)
  | varUint (w : VarWidth)
  | varInt (w : VarWidth)
  | bits (n : Nat)
  | address
  | ref
  deriving DecidableEq, Repr

namespace ItemKind

/-- The values of a kind. -/
def Carrier : ItemKind → Type
  | bit => Bool
  | uint _ | int _ => Word
  | bigUint _ | varUint _ => Nat
  | bigInt _ | varInt _ => Int
  | bits _ => List UInt8
  | address => Address
  | ref => Cell

/-- Writes a value of a kind. -/
def store : (k : ItemKind) → k.Carrier → Write Unit
  | bit, b => Builder.storeBit b
  | uint n, w => Builder.storeUint w n
  | int n, w => Builder.storeInt w n
  | bigUint n, v => Builder.storeBigUint v n
  | bigInt n, v => Builder.storeBigInt v n
  | varUint w, v => Builder.storeVarUint v w
  | varInt w, v => Builder.storeVarInt v w
  | bits n, bytes => Builder.storeBits bytes n
  | address, a => Builder.storeAddress a
  | ref, c => Builder.storeRef c

/-- Reads a value of a kind. -/
def load : (k : ItemKind) → Load k.Carrier
  | bit => Slice.loadBit
  | uint n => Slice.loadUint n
  | int n => Slice.loadInt n
  | bigUint n => Slice.loadBigUint n
  | bigInt n => Slice.loadBigInt n
  | varUint w => Slice.loadVarUint w
  | varInt w => Slice.loadVarInt w
  | bits n => Slice.loadBits n
  | address => Slice.loadAddress
  | ref => Slice.loadRef

end ItemKind

/-- A kind with a value. -/
structure Item where
  kind : ItemKind
  value : kind.Carrier

namespace Item

/-- Writes an item. -/
def store (i : Item) : Write Unit := i.kind.store i.value

/-- Writes items one behind the other, up to the first one that fails. -/
def storeAll (items : List Item) : Write Unit := items.forM store

/-- Reads items of these kinds one behind the other, up to the first one that fails. -/
def loadAll : List ItemKind → Load (List Item)
  | [] => pure []
  | k :: kinds => do
    let value ← k.load
    let items ← loadAll kinds
    return ⟨k, value⟩ :: items

end Item
end CellPack
