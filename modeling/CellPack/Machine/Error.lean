import CellPack.Cell.Basic
import CellPack.Program.Basic
/-!
# Errors of running programs

Each cause that stops a program, with its text.
-/

namespace CellPack

/-- Why a program stops. -/
inductive RuntimeError where
  | headerMismatch (expected found : UInt32)
  | cell (error : CellError)
  | unknownProgram (name : String)
  | wrongProgramKind (name : String) (expected found : ProgramKind)
  | shapeMismatch (field expected : String)
  | missingField (typeName field : String)
  | invalidInstruction (program instr : String)
  | outOfSteps (limit : Nat)
  | nestedTooDeep (limit : Nat)
  deriving DecidableEq, Repr

/-- The text of the error. -/
def RuntimeError.message : RuntimeError → String
  | headerMismatch expected found =>
    "opcode mismatch: expected " ++ CompileError.headerText expected ++ ", found "
      ++ CompileError.headerText found
  | cell error => error.message
  | unknownProgram name => "no program named `" ++ name ++ "`"
  | wrongProgramKind name expected found =>
    "`" ++ name ++ "` is a " ++ found.text ++ " program, expected " ++ expected.text
  | shapeMismatch field expected => "field `" ++ field ++ "` expects a " ++ expected ++ " value"
  | missingField typeName field =>
    "value for `" ++ typeName ++ "` has no field `" ++ field ++ "`"
  | invalidInstruction program instr =>
    "`" ++ program ++ "` cannot execute `" ++ instr ++ "`"
  | outOfSteps limit => "fuel exhausted after " ++ toString limit ++ " steps"
  | nestedTooDeep limit => "nesting deeper than " ++ toString limit ++ " programs"

end CellPack
