import CellPack.Machine.Run
/-!
# The machine

A machine runs the programs of an artifact within limits. `store` and `load` work on a builder and a
slice of the caller; a program that fails once it has started leaves the builder empty. The data of
a contract starts with a flag, which says whether its fields or its setup parameters follow.
-/

namespace CellPack

/-- A set of programs with limits. -/
structure Machine where
  programs : ProgramSet
  limits : Limits := {}

/-- The data of a contract. -/
inductive ContractData where
  /-- The fields. -/
  | initialized (state : Value)
  /-- The setup parameters of a contract that has not run yet. -/
  | pending (params : Value)

namespace Machine

/-- Whether a serializer can start. -/
def canStart (m : Machine) (name : String) : Except RuntimeError Unit := do
  discard (m.programs.lookup false name)
  if m.limits.depth = 0 then throw (.nestedTooDeep m.limits.depth)

/-- Runs a serializer on a builder. -/
def store (m : Machine) (name : String) (v : Value) :
    ExceptT RuntimeError (StateM Builder) Unit := do
  m.canStart name
  let b ← get
  set ({} : Builder)
  match (storeProgram m.programs m.limits m.limits.depth name b v).run m.limits.steps with
  | (.ok b, _) => set b
  | (.error e, _) => throw e

/-- Runs a parser on a slice. -/
def load (m : Machine) (name : String) : ExceptT RuntimeError (StateM Slice) Value := do
  let s ← get
  match (loadProgram m.programs m.limits m.limits.depth name s).run m.limits.steps with
  | (.ok (p, r, rest), _) =>
    set rest
    toRecord p r
  | (.error e, _) => throw e

/-- The cell of a builder that starts with some bits and goes on with a record. -/
def storeAfter (m : Machine) (bits : List Bool) (name : String) (v : Value) :
    Except RuntimeError Cell :=
  match (m.store name v).run { bits } with
  | (.ok (), b) => .ok b.toCell
  | (.error e, _) => .error e

/-- The value that a parser reads from a slice. -/
def loadFrom (m : Machine) (name : String) (s : Slice) : Except RuntimeError Value :=
  ((m.load name).run s).1

/-- Takes a step on a slice. -/
def readStep {α : Type} (l : Load α) (s : Slice) : Except RuntimeError (α × Slice) :=
  match l.run s with
  | (.ok a, s) => .ok (a, s)
  | (.error e, _) => .error (.cell e)

/-- A record in a cell. -/
def serialize (m : Machine) (type : String) (v : Value) : Except RuntimeError Cell :=
  m.storeAfter [] (ProcName.store type) v

/-- An optional record in a cell: a bit, and a reference to the record if it is present. -/
def serializeOpt (m : Machine) (type : String) (v : Value) : Except RuntimeError Cell :=
  if v.isNull then .ok (.mk [false] [])
  else do
    let c ← m.serialize type v
    .ok (.mk [true] [c])

/-- The record in a cell, its header first. -/
def parse (m : Machine) (type : String) (c : Cell) : Except RuntimeError Value :=
  m.loadFrom (ProcName.load type) c.toSlice

/-- The record in a cell without its header. -/
def parseNoHeader (m : Machine) (type : String) (c : Cell) : Except RuntimeError Value :=
  m.loadFrom (ProcName.loadNoHeader type) c.toSlice

/-- What is left of a message in the cell of a bounced one. -/
def parseBounced (m : Machine) (type : String) (c : Cell) : Except RuntimeError Value :=
  m.loadFrom (ProcName.loadBounced type) c.toSlice

/-- The optional record in a cell. -/
def parseOpt (m : Machine) (type : String) (c : Cell) : Except RuntimeError Value := do
  let (present, s) ← readStep Slice.loadBit c.toSlice
  if present then
    let (c, _) ← readStep Slice.loadRef s
    m.parse type c
  else .ok .null

/-- The data of a contract that has not run yet. -/
def initData (m : Machine) (contract : String) (params : Value) : Except RuntimeError Cell :=
  m.storeAfter [false] (ProcName.store (ProcName.initType contract)) params

/-- The data of a contract in a state. -/
def contractData (m : Machine) (contract : String) (state : Value) : Except RuntimeError Cell :=
  m.storeAfter [true] (ProcName.store contract) state

/-- Reads the data of a contract. -/
def loadContract (m : Machine) (contract : String) (data : Cell) :
    Except RuntimeError ContractData := do
  let (initialized, s) ← readStep Slice.loadBit data.toSlice
  if initialized then
    .initialized <$> m.loadFrom (ProcName.loadNoHeader contract) s
  else
    .pending <$> m.loadFrom (ProcName.load (ProcName.initType contract)) s

end Machine
end CellPack
