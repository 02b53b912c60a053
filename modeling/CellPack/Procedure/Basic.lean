import CellPack.Program.Basic
import CellPack.Quoted
import CellPack.Table
/-!
# Procedures

Generated procedures with their bodies. A line of a body is made of fragments, so that the calls in
it are known. The registry keeps the first procedure of each name.
-/

namespace CellPack

/-- A part of a line of code. -/
inductive Fragment where
  | text (s : String)
  /-- The name of a generated procedure that is called. -/
  | call (procedure : String)
  deriving DecidableEq, Repr

/-- The written form. -/
def Fragment.toText : Fragment → String
  | text s => s
  | call procedure => procedure

/-- A line of code. -/
abbrev Line := List Fragment

namespace Line

/-- The written form. -/
def toText (l : Line) : String := String.join (l.map Fragment.toText)

/-- The procedures that the line calls. -/
def calls (l : Line) : List String :=
  l.filterMap fun
    | .call procedure => some procedure
    | .text _ => none

/-- A line without calls. -/
def plain (s : String) : Line := [.text s]

/-- A call between two texts. -/
def around (before procedure after : String) : Line :=
  [.text before, .call procedure, .text after]

end Line

/-- The part of the output that a procedure belongs to. -/
inductive Section where
  | stdlib
  | constants
  | type (name : String)
  /-- The setup of a contract. -/
  | typeInit (name : String)
  | untagged
  deriving DecidableEq, Repr

/-- The written form. -/
def Section.text : Section → String
  | stdlib => "Stdlib"
  | constants => "Constants"
  | type name => "Type(" ++ Quoted.quote name ++ ")"
  | typeInit name => "TypeInit(" ++ Quoted.quote name ++ ")"
  | untagged => "Untagged"

/-- How a procedure is called. -/
inductive Modifier where
  | none
  | inline
  | inlineRef
  | methodId
  deriving DecidableEq, Repr

/-- The written form. -/
def Modifier.text : Modifier → String
  | none => "None"
  | inline => "Inline"
  | inlineRef => "InlineRef"
  | methodId => "MethodId"

/-- A generated procedure. -/
structure Procedure where
  name : String
  /-- Result, name and parameters. -/
  signature : String
  part : Section
  impure : Bool := false
  modifier : Modifier := .none
  comment : Option String := none
  body : List Line := []
  /-- The program behind the body, if it has one. -/
  program : Option Program := none
  deriving DecidableEq, Repr

namespace Procedure

/-- The procedures that the body calls. -/
def calls (p : Procedure) : List String := p.body.flatMap Line.calls

/-- The lines of the body. -/
def bodyText (p : Procedure) : List String := p.body.map Line.toText

end Procedure

/-- Procedures by name in order of registration, and declarations of global variables. -/
structure Registry where
  procedures : Table String Procedure := []
  globals : List String := []

namespace Registry

/-- Registers a procedure unless its name is taken; tells whether it was registered. -/
def add (r : Registry) (p : Procedure) : Bool × Registry :=
  if Table.contains r.procedures p.name then (false, r)
  else (true, { r with procedures := r.procedures ++ [(p.name, p)] })

/-- Registers procedures in order. -/
def addAll (r : Registry) (ps : List Procedure) : Registry :=
  ps.foldl (fun r p => (r.add p).2) r

/-- The procedure of a name. -/
def get? (r : Registry) (name : String) : Option Procedure := Table.get? r.procedures name

/-- Declares a global variable once. -/
def addGlobal (r : Registry) (declaration : String) : Registry :=
  if declaration ∈ r.globals then r else { r with globals := r.globals ++ [declaration] }

/-- The procedures in order, with their comments if asked for. -/
def extract (r : Registry) (comments : Bool) : List Procedure :=
  r.procedures.map fun (_, p) => if comments then p else { p with comment := none }

/-- The programs behind the procedures. -/
def programs (r : Registry) : ProgramSet :=
  ProgramSet.ofList (r.procedures.filterMap (·.2.program))

end Registry
end CellPack
