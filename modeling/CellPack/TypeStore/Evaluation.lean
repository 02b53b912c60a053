import CellPack.Expr.Eval
import CellPack.TypeStore.Basic
/-!
# Evaluation of a store

Fills the value slots of a store: the free-standing constants first, then for each record type its
constants, the defaults of its fields and parameters, and its header. The first failure ends the
evaluation; the slots before it stay filled and the others stay as they are.
-/

namespace CellPack

/-- Fills the values of constants, each visible to the later ones. -/
def evaluateConstants (ev : Evaluator) :
    ConstEnv → List Constant → List Constant × Except EvalError ConstEnv
  | env, [] => ([], .ok env)
  | env, c :: rest =>
    match ev c.expr c.type env with
    | .error e => (c :: rest, .error e)
    | .ok v =>
      let (rest, result) := evaluateConstants ev (Table.put env c.name v) rest
      ({ c with value := some v } :: rest, result)

/-- Fills the values of the defaults of fields. -/
def evaluateDefaults (ev : Evaluator) (env : ConstEnv) :
    List Field → List Field × Except EvalError Unit
  | [] => ([], .ok ())
  | f :: rest =>
    match f.default with
    | none =>
      let (rest, result) := evaluateDefaults ev env rest
      (f :: rest, result)
    | some e =>
      match ev e f.type env with
      | .error e => (f :: rest, .error e)
      | .ok v =>
        let (rest, result) := evaluateDefaults ev env rest
        ({ f with value := some v } :: rest, result)

/-- The header that a value is: an integer of 32 bits without a sign. -/
def headerOfValue : ConstValue → Except EvalError UInt32
  | .int v =>
    if 0 ≤ v ∧ v.toNat < UInt32.size then .ok (UInt32.ofNat v.toNat)
    else .error (.outOfRange v (.uint 32))
  | other => .error (.typeMismatch (IntFormat.uint 32).text other.kindName)

namespace RecordType

/-- Fills the defaults of the fields, then those of the parameters. -/
def evaluateFields (ev : Evaluator) (env : ConstEnv) (t : RecordType) :
    RecordType × Except EvalError Unit :=
  match evaluateDefaults ev env t.fields with
  | (fields, .error e) => ({ t with fields }, .error e)
  | (fields, .ok ()) =>
    match t.init with
    | none => ({ t with fields }, .ok ())
    | some params =>
      let (params, result) := evaluateDefaults ev env params
      ({ t with fields, init := some params }, result)

/-- Fills the header. -/
def evaluateHeader (ev : Evaluator) (env : ConstEnv) (t : RecordType) :
    RecordType × Except EvalError Unit :=
  match t.header with
  | none => (t, .ok ())
  | some e =>
    match ev e (.int (.uint 32)) env >>= headerOfValue with
    | .error e => (t, .error e)
    | .ok h => ({ t with headerValue := some h }, .ok ())

/-- Fills all slots of a record type, which sees the free-standing constants and its own. -/
def evaluate (ev : Evaluator) (globals : ConstEnv) (t : RecordType) :
    RecordType × Except EvalError Unit :=
  match evaluateConstants ev globals t.constants with
  | (constants, .error e) => ({ t with constants }, .error e)
  | (constants, .ok env) =>
    match evaluateFields ev env { t with constants } with
    | (t, .error e) => (t, .error e)
    | (t, .ok ()) => evaluateHeader ev env t

theorem exists_evaluateFields (ev : Evaluator) (env : ConstEnv) (t : RecordType) :
    ∃ fields init, (t.evaluateFields ev env).1 = { t with fields, init } := by
  unfold evaluateFields
  split
  · exact ⟨_, _, rfl⟩
  · split <;> exact ⟨_, _, rfl⟩

theorem exists_evaluateHeader (ev : Evaluator) (env : ConstEnv) (t : RecordType) :
    ∃ headerValue, (t.evaluateHeader ev env).1 = { t with headerValue } := by
  unfold evaluateHeader
  split
  · exact ⟨_, rfl⟩
  · split <;> exact ⟨_, rfl⟩

theorem name_evaluateFields (ev : Evaluator) (env : ConstEnv) (t : RecordType) :
    (t.evaluateFields ev env).1.name = t.name := by
  obtain ⟨fields, init, h⟩ := t.exists_evaluateFields ev env
  rw [h]

theorem name_evaluateHeader (ev : Evaluator) (env : ConstEnv) (t : RecordType) :
    (t.evaluateHeader ev env).1.name = t.name := by
  obtain ⟨headerValue, h⟩ := t.exists_evaluateHeader ev env
  rw [h]

theorem name_evaluate (ev : Evaluator) (globals : ConstEnv) (t : RecordType) :
    (t.evaluate ev globals).1.name = t.name := by
  unfold evaluate
  split
  · rfl
  · rename_i constants env _
    have h := name_evaluateFields ev env { t with constants }
    split <;> rename_i h'
    · rw [h'] at h
      exact h
    · rw [h'] at h
      rw [name_evaluateHeader]
      exact h

end RecordType

/-- Fills the slots of record types in order. -/
def evaluateTypes (ev : Evaluator) (globals : ConstEnv) :
    List RecordType → List RecordType × Except EvalError Unit
  | [] => ([], .ok ())
  | t :: rest =>
    match t.evaluate ev globals with
    | (t, .error e) => (t :: rest, .error e)
    | (t, .ok ()) =>
      let (rest, result) := evaluateTypes ev globals rest
      (t :: rest, result)

theorem names_evaluateTypes (ev : Evaluator) (globals : ConstEnv) (ts : List RecordType) :
    (evaluateTypes ev globals ts).1.map (·.name) = ts.map (·.name) := by
  induction ts with
  | nil => rfl
  | cons t rest ih =>
    have h := t.name_evaluate ev globals
    unfold evaluateTypes
    split <;> rename_i h' <;> rw [h'] at h
    · simp [← h]
    · simp only [List.map_cons, ih, ← h]

/-- Fills all slots of a store; returns the free-standing constants. -/
def TypeStore.evaluate (ev : Evaluator) (s : TypeStore) :
    TypeStore × Except EvalError ConstEnv :=
  match evaluateConstants ev [] s.constants with
  | (constants, .error e) => ({ s with constants }, .error e)
  | (constants, .ok globals) =>
    let r := evaluateTypes ev globals s.types
    let filled := s.withTypes r.1 (names_evaluateTypes ev globals s.types)
    ({ filled with constants }, r.2.map fun _ => globals)

end CellPack
