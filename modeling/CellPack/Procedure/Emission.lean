import CellPack.Procedure.Basic
/-!
# Text of procedures

An emitter turns a group of procedures into the text of a file: with their bodies, or only declared.
-/

namespace CellPack

/-- A way to write procedures below some lines of a header. -/
structure Emitter where
  /-- Full definitions. -/
  emit : List String → List Procedure → String
  /-- Declarations. -/
  declare : List String → List Procedure → String

namespace Emitter

/-- A line with its end. -/
def line (s : String) : String := s ++ "\n"

/-- The header, set off by an empty line. -/
def headerText (header : List String) : String :=
  if header.isEmpty then "" else String.join (header.map line) ++ "\n"

/-- The words behind a signature. A method has its word only where it is defined. -/
def modifierText (p : Procedure) (declaration : Bool) : String :=
  let impure := if p.impure then " impure" else ""
  match p.modifier with
  | .none => impure
  | .inline => impure ++ " inline"
  | .inlineRef => impure ++ " inline_ref"
  | .methodId => if declaration then impure else impure ++ " method_id"

/-- The definition of a procedure. -/
def definition (p : Procedure) : String :=
  let comment := p.comment.elim "" fun c => line (";; " ++ c)
  comment ++ line (p.signature ++ modifierText p false ++ " \x7b")
    ++ String.join (p.bodyText.map fun l => line ("    " ++ l)) ++ line "\x7d"

/-- The declaration of a procedure; methods have none. -/
def declaration (p : Procedure) : String :=
  if p.modifier = .methodId then "" else line (p.signature ++ modifierText p true ++ ";")

/-- Definitions with an empty line between them, and declarations on one line each. -/
def standard : Emitter where
  emit header ps := headerText header ++ String.intercalate "\n" (ps.map definition)
  declare header ps := headerText header ++ String.join (ps.map declaration)

end Emitter
end CellPack
