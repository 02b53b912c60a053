import CellPack.Capacity
import CellPack.Cell.Builder
/-!
# Text in cells

A text is kept as a chain: each cell holds up to 127 bytes of its UTF-8 form and refers to the cell
that holds the rest. Chunks may end inside a character. `writeText` makes the chain through
builders, which may run out of room.
-/

namespace CellPack

/-- Writes bytes as words of eight bits. -/
def Builder.storeBytes (bytes : List UInt8) : Write Unit :=
  bytes.forM fun byte => storeUint (BitVec.ofNat 128 byte.toNat) 8

/-- Writes a chunk, and a reference to the chain behind it if there is one. -/
def Builder.storeChunk (chunk : List UInt8) (next : Option Cell) : Write Unit := do
  storeBytes chunk
  next.forM storeRef

namespace Cell

/-- A byte string in chunks of 127 bytes, the last one possibly shorter. -/
def chunks (bytes : List UInt8) : List (List UInt8) :=
  if _h : bytes = [] then []
  else bytes.take textChunkBytes :: chunks (bytes.drop textChunkBytes)
termination_by bytes.length
decreasing_by
  have : 0 < bytes.length := List.length_pos_iff.2 _h
  simp [textChunkBytes]
  omega

/-- Puts a chunk in front of a chain. -/
def link (chunk : List UInt8) (next : Option Cell) : Option Cell :=
  some (mk (Bits.ofBytes chunk) next.toList)

/-- The chain that holds a byte string, built from its last chunk. -/
def ofBytes (bytes : List UInt8) : Cell := ((chunks bytes).foldr link none).getD empty

/-- The chain that holds a text. -/
def ofText (s : String) : Cell := ofBytes s.toUTF8.toList

/-- Puts a chunk in front of a chain that has been written. -/
def writeLink (next : Option Cell) (chunk : List UInt8) : Except CellError (Option Cell) :=
  match (Builder.storeChunk chunk next).run {} with
  | (.ok (), b) => .ok (some b.toCell)
  | (.error e, _) => .error e

/-- Writes the chain that holds a text, the last chunk first. -/
def writeText (s : String) : Except CellError Cell := do
  let first ← (chunks s.toUTF8.toList).reverse.foldlM writeLink none
  return first.getD empty

/-- The whole bytes of a chain, along the first references. -/
def chainBytes : Cell → List UInt8
  | mk bits [] => Bits.wholeBytes bits
  | mk bits (next :: _) => Bits.wholeBytes bits ++ chainBytes next

/-- The text that a chain holds. -/
def readText (c : Cell) : Except CellError String :=
  match String.fromUTF8? ⟨c.chainBytes.toArray⟩ with
  | some s => .ok s
  | none => .error .invalidUtf8

end Cell
end CellPack
