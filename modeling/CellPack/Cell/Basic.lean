import CellPack.Cell.Bits
/-!
# Cells

A cell holds data bits and references to further cells. Its text shows the bits in hexadecimal and
each referenced cell on lines of its own, one more space indented.
-/

namespace CellPack

/-- A tree of cells. -/
inductive Cell where
  | mk (bits : List Bool) (refs : List Cell)
  deriving Inhabited

/-- Why a cell cannot be written or read. -/
inductive CellError where
  | bitOverflow (requested available : Nat)
  | refOverflow
  | underflow (requested available : Nat)
  | refUnderflow
  | valueOutOfRange (bits : Nat)
  | invalidAddress
  | invalidUtf8
  deriving DecidableEq, Repr

/-- The text of the error. -/
def CellError.message : CellError → String
  | bitOverflow requested available =>
    "cell overflow: " ++ toString requested ++ " bits requested, " ++ toString available
      ++ " available"
  | refOverflow => "cell overflow: no reference slot left"
  | underflow requested available =>
    "cell underflow: " ++ toString requested ++ " bits requested, " ++ toString available
      ++ " left"
  | refUnderflow => "cell underflow: no reference left to load"
  | valueOutOfRange bits => "value does not fit in " ++ toString bits ++ " bits"
  | invalidAddress => "malformed address"
  | invalidUtf8 => "string data is not valid UTF-8"

namespace Cell

/-- The data bits. -/
def bits : Cell → List Bool
  | mk bits _ => bits

/-- The referenced cells. -/
def refs : Cell → List Cell
  | mk _ refs => refs

/-- The cell without bits and references. -/
def empty : Cell := mk [] []

/--
A bit by its position. Behind the last bit, the rest of its byte reads as zeros; further positions
have no bit.
-/
def bit? (c : Cell) (index : Nat) : Option Bool :=
  match c.bits[index]? with
  | some b => some b
  | none => if index < 8 * ((c.bits.length + 7) / 8) then some false else none

mutual
/-- The number of cells in the tree. -/
def treeSize : Cell → Nat
  | mk _ refs => 1 + treeSizes refs
/-- The number of cells in several trees. -/
def treeSizes : List Cell → Nat
  | [] => 0
  | c :: rest => treeSize c + treeSizes rest
end

mutual
/-- The lines of the text below `depth` levels of indentation. -/
def lines (depth : Nat) : Cell → List (List Char)
  | mk bits refs =>
    (List.replicate depth ' ' ++ ['x', '\x7b'] ++ Bits.hexText bits ++ ['\x7d'])
      :: linesOf (depth + 1) refs
/-- The lines of several trees. -/
def linesOf (depth : Nat) : List Cell → List (List Char)
  | [] => []
  | c :: rest => lines depth c ++ linesOf depth rest
end

/-- The text of a tree. -/
def text (c : Cell) : String := String.intercalate "\n" ((lines 0 c).map String.ofList)

mutual
/-- Whether two trees hold the same bits and references. -/
def decEq : (a b : Cell) → Decidable (a = b)
  | mk bits refs, mk bits' refs' =>
    if h : bits = bits' then
      match decEqList refs refs' with
      | isTrue h' => isTrue (by rw [h, h'])
      | isFalse h' => isFalse (by simp [h'])
    else isFalse (by simp [h])
/-- Whether two lists of trees are equal. -/
def decEqList : (a b : List Cell) → Decidable (a = b)
  | [], [] => isTrue rfl
  | [], _ :: _ => isFalse (by simp)
  | _ :: _, [] => isFalse (by simp)
  | a :: as, b :: bs =>
    match decEq a b with
    | isTrue h =>
      match decEqList as bs with
      | isTrue h' => isTrue (by rw [h, h'])
      | isFalse h' => isFalse (by simp [h'])
    | isFalse h => isFalse (by simp [h])
end

instance : DecidableEq Cell := decEq

end Cell
end CellPack
