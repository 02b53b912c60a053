import CellPack.Cell.Slice
import CellPack.Cell.Snake
import CellPack.Machine.Error
import CellPack.Machine.Value
import CellPack.ProcName
/-!
# Running programs

A serializer writes the fields of a record to numbered builders, a parser reads them from numbered
slices. A record inside another one is written and read by its own program. A run is limited in the
number of instructions, which is counted down as it goes, and in how deep programs are nested, which
the first argument of `storeProgram` and `loadProgram` bounds.
-/

namespace CellPack

/-- The limits of a run. -/
structure Limits where
  steps : Nat := 1000000
  depth : Nat := 256
  deriving DecidableEq, Repr

/-- A step of a run, which counts down the instructions that may still be executed. -/
abbrev Run (α : Type) := ExceptT RuntimeError (StateM Nat) α

namespace Run

/-- Counts one instruction. -/
def step (limits : Limits) : Run Unit := do
  match ← get with
  | 0 => throw (.outOfSteps limits.steps)
  | n + 1 => set n

/-- Writes to a builder. -/
def write (w : Write Unit) (b : Builder) : Run Builder :=
  match w.run b with
  | (.ok (), b) => return b
  | (.error e, _) => throw (.cell e)

/-- Reads from a slice. -/
def read {α : Type} (l : Load α) (s : Slice) : Run (α × Slice) :=
  match l.run s with
  | (.ok a, s) => return (a, s)
  | (.error e, _) => throw (.cell e)

end Run

namespace ProgramSet

/-- The program of a name, which has to be a parser or has to be none. -/
def lookup (set : ProgramSet) (parser : Bool) (name : String) : Except RuntimeError Program :=
  match Table.get? set name with
  | none => .error (.unknownProgram name)
  | some p =>
    if (p.kind != .serializer) = parser then .ok p
    else .error (.wrongProgramKind name (if parser then .parser else .serializer) p.kind)

end ProgramSet

/-- The error of an instruction that a program cannot execute. -/
def Program.invalid (p : Program) (i : Instr) : RuntimeError :=
  .invalidInstruction p.name i.text

/-- A numbered builder or slice. -/
def Program.slot {α : Type} (p : Program) (i : Instr) (items : List α) (index : Nat) : Run α :=
  match items[index]? with
  | some a => return a
  | none => throw (p.invalid i)

/-! ## Writing -/

namespace Machine

/-- An integer that may not be negative, for a format of so many bits. -/
def natOrRange (v : Int) (bits : Nat) : Write Nat :=
  if v < 0 then throw (.valueOutOfRange bits) else return v.toNat

/-- Writes an integer in its format. -/
def storeInt (format : IntFormat) (v : Int) : Write Unit := do
  match format with
  | .int n => Builder.storeBigInt v n
  | .uint n => Builder.storeBigUint (← natOrRange v n) n
  | .varInt w => Builder.storeVarInt v w
  | .varUint w => Builder.storeVarUint (← natOrRange v (8 * w.maxBytes)) w

/-- Writes a map: a bit, and a reference if it is set. -/
def storeDict (root : Option Cell) : Write Unit := do
  match root with
  | none => Builder.storeBit false
  | some c =>
    Builder.storeBit true
    Builder.storeRef c

/-- Writes the value of a field, where `call` runs the program of a contained record. -/
def storeOp (call : String → Builder → Value → Run Builder) (field : String) :
    FieldOp → Value → Builder → Run Builder
  | .int format, .int v, b => Run.write (storeInt format v) b
  | .bool, .bool x, b => Run.write (Builder.storeBit x) b
  | .address, .address a, b => Run.write (Builder.storeAddress a) b
  | .bits n, .bits bytes, b => Run.write (Builder.storeBits bytes n) b
  | .ref .string, .string s, b => Run.write (Builder.storeRef (Cell.ofText s)) b
  | .ref .cell, .cell c, b | .ref .slice, .cell c, b | .ref .builder, .cell c, b =>
    Run.write (Builder.storeRef c) b
  | .dict, .null, b => Run.write (storeDict none) b
  | .dict, .cell c, b => Run.write (storeDict (some c)) b
  | .record name false, .record fields, b => call (ProcName.store name) b (.record fields)
  | .record name true, .record fields, b => do
    let child ← call (ProcName.store name) {} (.record fields)
    Run.write (Builder.storeRef child.toCell) b
  | .optional _ _, .null, b => Run.write (Builder.storeBit false) b
  | .optional inner false, v, b => do
    let b ← Run.write (Builder.storeBit true) b
    storeOp call field inner v b
  | .optional inner true, v, b => do
    let b ← Run.write (Builder.storeBit true) b
    let child ← storeOp call field inner v {}
    Run.write (Builder.storeRef child.toCell) b
  | op, _, _ => throw (.shapeMismatch field op.text)

/-- The value of a field of a record. -/
def fieldValue (p : Program) (v : Value) (field : String) : Run Value :=
  match v with
  | .record fields =>
    match fields.lookup field with
    | some v => return v
    | none => throw (.missingField p.typeName field)
  | _ => throw (.shapeMismatch p.typeName "struct")

/-- Executes an instruction of a serializer on its builders. -/
def storeInstr (call : String → Builder → Value → Run Builder) (p : Program) (v : Value)
    (builders : List Builder) (i : Instr) : Run (List Builder) := do
  match i with
  | .beginCell cell => return builders ++ List.replicate (cell + 1 - builders.length) ({} : Builder)
  | .storeHeader cell header =>
    let b ← p.slot i builders cell
    let b ← Run.write (Builder.storeUint (BitVec.ofNat 128 header.toNat) headerBits) b
    return builders.set cell b
  | .store cell field op =>
    let x ← fieldValue p v field
    let b ← p.slot i builders cell
    let b ← storeOp call field op x b
    return builders.set cell b
  | .endCell parent child =>
    let done ← p.slot i builders child
    let builders := builders.set child {}
    let b ← p.slot i builders parent
    let b ← Run.write (Builder.storeRef done.toCell) b
    return builders.set parent b
  | _ => throw (p.invalid i)

/-- Runs a serializer on a builder. The first argument bounds how deep programs are nested. -/
def storeProgram (set : ProgramSet) (limits : Limits) :
    Nat → String → Builder → Value → Run Builder
  | depth, name, b, v => do
    let p ← set.lookup false name
    match depth with
    | 0 => throw (.nestedTooDeep limits.depth)
    | depth + 1 =>
      let builders ← p.instrs.foldlM
        (fun builders i => do
          Run.step limits
          storeInstr (storeProgram set limits depth) p v builders i)
        [b]
      return builders.headD {}

/-! ## Reading -/

/-- Reads an integer in its format. -/
def loadInt (format : IntFormat) : Load Int := do
  match format with
  | .int n => Slice.loadBigInt n
  | .uint n => return Int.ofNat (← Slice.loadBigUint n)
  | .varInt w => Slice.loadVarInt w
  | .varUint w => return Int.ofNat (← Slice.loadVarUint w)

/-- Reads a text behind a reference. -/
def loadText : Load String := do
  let c ← Slice.loadRef
  match c.readText with
  | .ok s => return s
  | .error e => throw e

/-- Reads a map: a bit, and a reference if it is set. -/
def loadDict : Load Value := do
  if ← Slice.loadBit then return .cell (← Slice.loadRef) else return .null

/-- Reads the value of a field, where `call` runs the program of a contained record. -/
def loadOp (call : String → Slice → Run (Value × Slice)) : FieldOp → Slice → Run (Value × Slice)
  | .int format, s => Run.read (Value.int <$> loadInt format) s
  | .bool, s => Run.read (Value.bool <$> Slice.loadBit) s
  | .address, s => Run.read (Value.address <$> Slice.loadAddress) s
  | .bits n, s => Run.read (Value.bits <$> Slice.loadBits n) s
  | .ref .string, s => Run.read (Value.string <$> loadText) s
  | .ref _, s => Run.read (Value.cell <$> Slice.loadRef) s
  | .dict, s => Run.read loadDict s
  | .record name false, s => call (ProcName.load name) s
  | .record name true, s => do
    let (c, s) ← Run.read Slice.loadRef s
    let (v, _) ← call (ProcName.load name) c.toSlice
    return (v, s)
  | .optional inner boxed, s => do
    let (present, s) ← Run.read Slice.loadBit s
    if !present then return (.null, s)
    else if boxed then
      let (c, s) ← Run.read Slice.loadRef s
      let (v, _) ← loadOp call inner c.toSlice
      return (v, s)
    else loadOp call inner s

/-- The value that a default stands for. -/
def ofDefault : DefaultValue → Value
  | .zero => .int 0
  | .false => .bool false
  | .null => .null

/-- What a parser has read so far: its slices and the fields in order of reading. -/
structure Reading where
  slices : List Slice
  loaded : List (String × Value) := []

/-- Executes an instruction of a parser. -/
def loadInstr (call : String → Slice → Run (Value × Slice)) (p : Program) (r : Reading)
    (i : Instr) : Run Reading := do
  match i with
  | .checkHeader cell expected =>
    let s ← p.slot i r.slices cell
    let (found, s) ← Run.read (Slice.loadUint headerBits) s
    let found := UInt32.ofNat found.toNat
    if found ≠ expected then throw (.headerMismatch expected found)
    return { r with slices := r.slices.set cell s }
  | .openCell parent child =>
    if child ≠ r.slices.length then throw (p.invalid i)
    let s ← p.slot i r.slices parent
    let (c, s) ← Run.read Slice.loadRef s
    return { r with slices := r.slices.set parent s ++ [c.toSlice] }
  | .load cell field op =>
    let s ← p.slot i r.slices cell
    let (v, s) ← loadOp call op s
    return { slices := r.slices.set cell s, loaded := r.loaded ++ [(field, v)] }
  | .setDefault field value =>
    return { r with loaded := r.loaded ++ [(field, ofDefault value)] }
  | _ => throw (p.invalid i)

/-- A list without one item, whose place the last item takes. -/
def swapRemove {α : Type} (items : List α) (index : Nat) : List α :=
  match items.getLast? with
  | some last => (items.set index last).dropLast
  | none => []

/-- The fields of a record out of those that were read; each one is used once. -/
def takeFields (typeName : String) :
    List String → List (String × Value) → Except RuntimeError (List (String × Value))
  | [], _ => .ok []
  | name :: rest, loaded =>
    match loaded.findIdx? (·.1 = name), loaded.lookup name with
    | some i, some v => ((name, v) :: ·) <$> takeFields typeName rest (swapRemove loaded i)
    | _, _ => .error (.missingField typeName name)

/-- The record that a parser makes of the fields it read. -/
def toRecord (p : Program) (r : Reading) : Except RuntimeError Value :=
  .record <$> takeFields p.typeName p.fields r.loaded

/--
Reads everything that a parser reads from a slice, and returns the rest of the slice. The first
argument bounds how deep programs are nested.
-/
def loadProgram (set : ProgramSet) (limits : Limits) :
    Nat → String → Slice → Run (Program × Reading × Slice)
  | depth, name, s => do
    let p ← set.lookup true name
    match depth with
    | 0 => throw (.nestedTooDeep limits.depth)
    | depth + 1 =>
      let call (name : String) (s : Slice) : Run (Value × Slice) := do
        let (p, r, rest) ← loadProgram set limits depth name s
        let v ← toRecord p r
        return (v, rest)
      let r ← p.instrs.foldlM
        (fun r i => do
          Run.step limits
          loadInstr call p r i)
        { slices := [s] }
      return (p, r, r.slices.headD s)

end Machine
end CellPack
