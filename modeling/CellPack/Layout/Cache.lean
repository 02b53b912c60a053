import CellPack.Layout.Lowering
/-!
# Computing layouts

Fields are placed in order, each in the current cell if it fits and at the start of a new one
otherwise. The layouts of contained records are computed on first request and kept in a cache, which
also lists the requests in progress, so that a record inside itself is noticed.
-/

namespace CellPack

/-- The layouts computed so far, in order of completion, and the requests in progress. -/
structure LayoutCache where
  entries : Table LayoutId Layout := []
  inProgress : List LayoutId := []

/-- A computation of layouts. The cache is kept when it fails. -/
abbrev LayoutM (α : Type) := ExceptT CompileError (StateM LayoutCache) α

/-- The bits at the start of the first cell: a header, or the flag of a contract. -/
def reservedBits (id : LayoutId) (kind : RecordKind) : Nat :=
  match id, kind with
  | .init _, _ => 1
  | _, .message => headerBits
  | _, .contract => 1
  | _, _ => 0

/-- Fails if a field has a content that no empty cell can hold. -/
def checkPayload (typeName field : String) (payload : CellSize) : Except CompileError Unit :=
  if payload.bits > maxCellBits then .error (.fieldTooLarge typeName field payload.bits)
  else if payload.refs > usableCellRefs then .error (.tooManyReferences typeName field)
  else .ok ()

/-- Fails if a field is a record, optional or not, that is not declared. -/
def checkResolved (s : TypeStore) (typeName : String) (f : Field) : Except CompileError Unit :=
  match f.type.withoutOptional with
  | .record name =>
    if s.contains name then .ok () else .error (.unresolvedType typeName f.name name)
  | _ => .ok ()

/--
How a record goes to a cell: in place if its layout allows it, and if it fits or else no reference
would fit either.
-/
def nestedOp (current : LayoutCell) (name : String) (nested : Layout) : FieldOp × CellSize :=
  let inline := nested.firstCellSize
  let boxed := nested.boxedWhenNested || (!current.canFit inline && current.canFit ⟨0, 1⟩)
  if boxed then (.record name true, ⟨0, 1⟩) else (.record name false, inline)

/-- The operation, size and content size of a field for the current cell. -/
def fieldCost (request : String → LayoutM Layout) (current : LayoutCell) (type : FieldType) :
    LayoutM (FieldOp × CellSize × CellSize) := do
  match type.lower with
  | .fixed op size payload => return (op, size, payload)
  | .nested name =>
    let (op, size) := nestedOp current name (← request name)
    return (op, size, size)

/-- Places fields, the first one in the current cell if it fits; returns that cell and all later. -/
def placeFields (s : TypeStore) (request : String → LayoutM Layout) (typeName : String) :
    LayoutCell → List Field → LayoutM (List LayoutCell)
  | current, [] => return [current]
  | current, f :: rest => do
    checkResolved s typeName f
    let (op, size, payload) ← fieldCost request current f.type
    checkPayload typeName f.name payload
    if current.canFit size then
      placeFields s request typeName (current.place f.name op size) rest
    else
      checkPayload typeName f.name size
      let fresh := (LayoutCell.reserving 0).place f.name op size
      return current :: (← placeFields s request typeName fresh rest)

/-- What is left of a full layout when a message bounces: the leading fields without references. -/
def Layout.bounced (full : Layout) (id : LayoutId) (fields : List Field) : Layout :=
  let kept := (full.cells.head?.elim [] (·.placements)).takeWhile (·.refs = 0)
  let cell := kept.foldl (fun c p => c.place p.field p.op p.size) (.reserving full.reserved)
  { id
    reserved := full.reserved
    header := full.header
    cells := [cell]
    fields := fields.map (·.name)
    omitted := (fields.drop kept.length).map fun f => (f.name, f.type.defaultValue) }

/-- The layout of a list of fields. -/
def layoutFields (s : TypeStore) (request : String → LayoutM Layout) (id : LayoutId)
    (t : RecordType) (header : Option UInt32) (fields : List Field) : LayoutM Layout := do
  let reserved := reservedBits id t.kind
  let cells ← placeFields s request id.typeName (.reserving reserved) fields
  return { id, reserved, header, cells, fields := fields.map (·.name), omitted := [] }

/-- Computes a layout, with `request` for the full layouts of other types. -/
def computeLayout (s : TypeStore) (request : String → LayoutM Layout) (id : LayoutId) :
    LayoutM Layout := do
  match s.get? id.typeName with
  | none => throw (.unknownEntryType id.typeName)
  | some t =>
    match id with
    | .full _ =>
      layoutFields s request id t (if t.isMessage then t.headerValue else none) t.fields
    | .init _ => layoutFields s request id t none (t.init.getD [])
    | .bounced name => return (← request name).bounced id t.fields

namespace LayoutCache

/-- The layout under an id. -/
def get? (c : LayoutCache) (id : LayoutId) : Option Layout := Table.get? c.entries id

/-- The layouts in order of completion. -/
def toList (c : LayoutCache) : List Layout := c.entries.map (·.2)

/-- Marks a request as started. -/
def start (id : LayoutId) : LayoutM Unit :=
  modify fun c => { c with inProgress := c.inProgress ++ [id] }

/-- Ends the latest request. -/
def finish : LayoutM Unit := modify fun c => { c with inProgress := c.inProgress.dropLast }

/-- Keeps a layout. -/
def keep (l : Layout) (id : LayoutId) : LayoutM Unit :=
  modify fun c => { c with entries := Table.put c.entries id l }

/--
The layout under an id, computed on first request. The first argument bounds how deep requests are
nested, which no store of that many types less two exceeds.
-/
def ensure (s : TypeStore) : Nat → LayoutId → LayoutM Layout
  | depth, id => do
    let cache ← get
    match cache.get? id with
    | some l => return l
    | none =>
      if id ∈ cache.inProgress then
        throw (.cyclicDependency ((cache.inProgress.dropWhile (· ≠ id)).map (·.typeName)))
      match depth with
      | 0 => throw (.cyclicDependency (cache.inProgress.map (·.typeName)))
      | depth + 1 =>
        start id
        let result ← ExceptT.lift
          (computeLayout s (fun name => ensure s depth (.full name)) id).run
        finish
        match result with
        | .error e => throw e
        | .ok l =>
          keep l id
          return l

/-- The layout under an id of a store. -/
def request (s : TypeStore) (id : LayoutId) : LayoutM Layout := ensure s (s.size + 2) id

/-- Requests all layouts of a record type. -/
def requestType (s : TypeStore) (t : RecordType) : LayoutM Unit := do
  if t.kind.hasLayout then
    discard (request s (.full t.name))
    if t.isMessage then discard (request s (.bounced t.name))
    if t.isContract ∧ t.init.isSome then discard (request s (.init t.name))

/-- The layouts of all record types, requested in the given order. -/
def ofOrder (s : TypeStore) (order : List String) : Except CompileError LayoutCache :=
  let requestAll : LayoutM Unit := (order.filterMap s.get?).forM (requestType s)
  match requestAll.run {} with
  | (.ok (), cache) => .ok cache
  | (.error e, _) => .error e

end LayoutCache
end CellPack
