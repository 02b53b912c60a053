import CellPack.Procedure.Literal
import CellPack.Procedure.ValueType
/-!
# Procedures of constants

Each constant has a procedure that returns its value. Free-standing constants have a section of
their own, the constants of a contract are with it.
-/

namespace CellPack

namespace ProcName

/-- A free-standing constant. -/
def constant (name : String) : String := "$const_" ++ name

/-- A constant of a contract. -/
def contractConstant (contract name : String) : String := ofType contract ("const_" ++ name)

end ProcName

namespace TypeStore

/-- The procedure of a constant that has a value. -/
def constantProcedure? (s : TypeStore) (name : String) (sec : Section) (c : Constant) :
    Option Procedure :=
  c.value.map fun v =>
    { name
      signature := s.codeType c.type ++ " " ++ name ++ "()"
      part := sec
      modifier := .inline
      body := [[.text "return "] ++ v.codeLiteral ++ [.text ";"]] }

/-- The procedures of all constants: the free-standing ones, then those of each contract. -/
def constantProcedures (s : TypeStore) : List Procedure :=
  let globals := s.constants.filterMap fun c =>
    s.constantProcedure? (ProcName.constant c.name) .constants c
  let own := (s.types.filter (·.isContract)).flatMap fun t =>
    t.constants.filterMap fun c =>
      s.constantProcedure? (ProcName.contractConstant t.name c.name) (.type t.name) c
  globals ++ own

end TypeStore

/-- A constant as it is offered to bindings. -/
structure ConstantBinding where
  name : String
  /-- The value as bindings write it. -/
  value : String
  fromContract : Bool
  deriving DecidableEq, Repr

/-- The binding of a constant that has a value. -/
def Constant.binding? (fromContract : Bool) (c : Constant) : Option ConstantBinding :=
  c.value.map fun v => ⟨c.name, v.bindingLiteral, fromContract⟩

/-- The constants for bindings of a contract: the user's free-standing ones, then its own. -/
def TypeStore.constantBindings (s : TypeStore) (contract : String) : List ConstantBinding :=
  let globals := s.constants.filter (·.origin = .user)
  let own := (s.get? contract).elim [] (·.constants)
  globals.filterMap (Constant.binding? false) ++ own.filterMap (Constant.binding? true)

end CellPack
