import CellPack.Expr.Eval
/-!
# Errors of compilation

Each cause that keeps a store from being compiled, with its text.
-/

namespace CellPack

/-- Why a store cannot be compiled. -/
inductive CompileError where
  /-- Records contain each other in a circle, in this order. -/
  | cyclicDependency (cycle : List String)
  | fieldTooLarge (typeName field : String) (bits : Nat)
  | tooManyReferences (typeName field : String)
  | evaluation (error : EvalError)
  | unknownEntryType (name : String)
  | unresolvedType (typeName field referenced : String)
  | duplicateHeader (header : UInt32) (first second : String)
  deriving DecidableEq, Repr

namespace CompileError

/-- A circle of names, closed by its first one. -/
def cycleText (cycle : List String) : String :=
  String.intercalate " -> " (cycle ++ cycle.head?.toList)

/-- A header as it is shown. -/
def headerText (header : UInt32) : String := "0x" ++ Numeral.hex 8 header.toNat

/-- The text of the error. -/
def message : CompileError → String
  | cyclicDependency cycle => "cyclic inline containment: " ++ cycleText cycle
  | fieldTooLarge typeName field bits =>
    "field `" ++ typeName ++ "." ++ field ++ "` needs " ++ toString bits
      ++ " bits and cannot fit in any cell"
  | tooManyReferences typeName field =>
    "field `" ++ typeName ++ "." ++ field ++ "` needs more reference slots than a cell provides"
  | evaluation error => error.message
  | unknownEntryType name => "entry type `" ++ name ++ "` not found"
  | unresolvedType typeName field referenced =>
    "field `" ++ typeName ++ "." ++ field ++ "` refers to unknown struct `" ++ referenced ++ "`"
  | duplicateHeader header first second =>
    "messages `" ++ first ++ "` and `" ++ second ++ "` share header " ++ headerText header

end CompileError
end CellPack
