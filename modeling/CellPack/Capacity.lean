/-!
# Capacity of cells

The fixed limits of a cell and the sizes that layouts are computed with. Sizes saturate: a sum
beyond the range of its component stays at the end of the range, which no cell can hold.
-/

namespace CellPack

/-- Data bits of a cell. -/
def maxCellBits : Nat := 1023

/-- References of a cell. -/
def maxCellRefs : Nat := 4

/-- References of a cell that fields can use: one is kept for the link to the next cell. -/
def usableCellRefs : Nat := maxCellRefs - 1

/-- Bits of the number that tells messages apart. -/
def headerBits : Nat := 32

/-- Bits of an address: two of a tag, one for an absent prefix, a workchain and a hash. -/
def addressBits : Nat := 267

/-- The exit code of a parser that meets another header than its own. -/
def headerMismatchExitCode : Nat := 129

/-- Bytes of text in one cell of a chain. -/
def textChunkBytes : Nat := 127

/-- Bits and references, of a field or of a cell. -/
structure CellSize where
  bits : Nat := 0
  refs : Nat := 0
  deriving DecidableEq, Repr

namespace CellSize

/-- No bits and no references. -/
def zero : CellSize := ⟨0, 0⟩

/-- A size in range: at most 16 bits wide for the bits, 8 for the references. -/
def saturate (bits refs : Nat) : CellSize := ⟨min bits 65535, min refs 255⟩

/-- The sum of two sizes. -/
def add (a b : CellSize) : CellSize := saturate (a.bits + b.bits) (a.refs + b.refs)

instance : Add CellSize := ⟨add⟩

/-- Whether the fields of a cell can have this size. -/
def fitsCell (s : CellSize) : Bool := s.bits ≤ maxCellBits ∧ s.refs ≤ usableCellRefs

end CellSize
end CellPack
