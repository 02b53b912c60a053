import Mathlib
import CellPack.Proofs.Values
import CellPack.Signature
import CellPack.TypeStore.Evaluation
/-!
# Outlines of stores

Evaluation changes nothing but the values of slots (`TypeStore.blank_evaluate`), and schemas and
headers are filled in without a change of the names, the kinds, the fields and the parameters of
record types. So the analysed store has the fields of the one that was given.
-/

namespace CellPack

/-- What of a record type does not change when it is evaluated and signed. -/
def RecordType.outline (t : RecordType) : String × RecordKind × Shape × Option Shape :=
  (t.name, t.kind, Field.shape t.fields, t.init.map Field.shape)

theorem RecordType.shape_allFields (t : RecordType) :
    Field.shape t.allFields = Field.shape t.fields ++ (t.init.map Field.shape).getD [] := by
  unfold allFields Field.shape
  cases t.init with
  | none => simp
  | some params => simp

/-- Two stores declare the same record types, and constants of the same names. -/
structure TypeStore.SameOutline (s s' : TypeStore) : Prop where
  types : s.types.map RecordType.outline = s'.types.map RecordType.outline
  constants : s.constants.map (·.name) = s'.constants.map (·.name)

/-! ## Evaluation -/

/-- The constant without its value. -/
def Constant.blank (c : Constant) : Constant := { c with value := none }

/-- The field without the value of its default. -/
def Field.blank (f : Field) : Field := { f with value := f.default.elim f.value fun _ => none }

/-- The record type without the values of its slots. -/
def RecordType.blank (t : RecordType) : RecordType :=
  { t with
    constants := t.constants.map Constant.blank
    fields := t.fields.map Field.blank
    init := t.init.map (List.map Field.blank)
    headerValue := t.header.elim t.headerValue fun _ => none }

/-- The store without the values of its slots. -/
def TypeStore.blank (s : TypeStore) : TypeStore :=
  { s.withTypes (s.types.map RecordType.blank) (by rw [List.map_map]; rfl) with
    constants := s.constants.map Constant.blank }

section
variable (ev : Evaluator)

theorem blank_evaluateConstants (cs : List Constant) : ∀ env : ConstEnv,
    (evaluateConstants ev env cs).1.map Constant.blank = cs.map Constant.blank := by
  induction cs with
  | nil => exact fun _ => rfl
  | cons c cs ih =>
    intro env
    unfold evaluateConstants
    cases ev c.expr c.type env with
    | error e => rfl
    | ok v => exact congrArg (c.blank :: ·) (ih _)

theorem blank_evaluateDefaults (env : ConstEnv) (fields : List Field) :
    (evaluateDefaults ev env fields).1.map Field.blank = fields.map Field.blank := by
  induction fields with
  | nil => rfl
  | cons f fields ih =>
    rcases f with ⟨name, type, _ | e, value⟩
    · exact congrArg ((⟨name, type, none, value⟩ : Field) :: ·) ih
    · unfold evaluateDefaults
      dsimp only
      cases ev e type env with
      | error e' => rfl
      | ok v => exact congrArg ((⟨name, type, some e, none⟩ : Field) :: ·) ih

namespace RecordType

theorem blank_evaluateFields (env : ConstEnv) (t : RecordType) :
    (t.evaluateFields ev env).1.blank = t.blank := by
  have hfields := blank_evaluateDefaults ev env t.fields
  unfold evaluateFields
  rcases heval : evaluateDefaults ev env t.fields with ⟨fields, e | ⟨⟩⟩ <;> rw [heval] at hfields
  · simp only [blank, hfields]
  · cases hinit : t.init with
    | none => simp only [blank, hfields, hinit]
    | some params =>
      simp only [blank, hfields, hinit, Option.map_some, blank_evaluateDefaults]

theorem blank_evaluateHeader (env : ConstEnv) (t : RecordType) :
    (t.evaluateHeader ev env).1.blank = t.blank := by
  unfold evaluateHeader
  cases hheader : t.header with
  | none => rfl
  | some x =>
    dsimp only
    cases ev x (.int (.uint 32)) env >>= headerOfValue with
    | error e => rfl
    | ok h => simp only [blank, hheader, Option.elim_some]

theorem blank_evaluate (globals : ConstEnv) (t : RecordType) :
    (t.evaluate ev globals).1.blank = t.blank := by
  have hconstants := blank_evaluateConstants ev t.constants globals
  unfold evaluate
  rcases heval : evaluateConstants ev globals t.constants with ⟨constants, e | env⟩ <;>
    rw [heval] at hconstants
  · simp only [blank, hconstants]
  · have hsame : ({ t with constants } : RecordType).blank = t.blank := by
      simp only [blank, hconstants]
    have hfields := blank_evaluateFields ev env { t with constants }
    dsimp only
    rcases heval' : evaluateFields ev env { t with constants } with ⟨t', e | ⟨⟩⟩ <;>
      rw [heval'] at hfields
    · exact hfields.trans hsame
    · exact (blank_evaluateHeader ev env t').trans (hfields.trans hsame)

end RecordType

theorem blank_evaluateTypes (globals : ConstEnv) (ts : List RecordType) :
    (evaluateTypes ev globals ts).1.map RecordType.blank = ts.map RecordType.blank := by
  induction ts with
  | nil => rfl
  | cons t ts ih =>
    have ht := t.blank_evaluate ev globals
    unfold evaluateTypes
    rcases heval : t.evaluate ev globals with ⟨t', e | ⟨⟩⟩ <;> rw [heval] at ht
    · rw [List.map_cons, ht, List.map_cons]
    · rw [List.map_cons, ht, ih, List.map_cons]

namespace TypeStore

/-- Evaluation changes nothing of a store but the values of its slots. -/
theorem blank_evaluate (s : TypeStore) : (s.evaluate ev).1.blank = s.blank := by
  have hconstants := blank_evaluateConstants ev s.constants []
  unfold evaluate
  rcases heval : evaluateConstants ev [] s.constants with ⟨constants, e | globals⟩ <;>
    rw [heval] at hconstants
  · simp only [blank, withTypes, hconstants]
  · simp only [blank, withTypes, hconstants, blank_evaluateTypes]

end TypeStore
end

theorem Field.shape_map_blank (fields : List Field) :
    Field.shape (fields.map Field.blank) = Field.shape fields := by
  rw [Field.shape, List.map_map]
  rfl

namespace RecordType

theorem outline_blank (t : RecordType) : t.blank.outline = t.outline := by
  have hinit : (t.init.map (List.map Field.blank)).map Field.shape = t.init.map Field.shape := by
    rw [Option.map_map]
    exact congrArg (t.init.map ·) (funext Field.shape_map_blank)
  simp only [outline, blank, Field.shape_map_blank, hinit]

theorem outline_evaluate (ev : Evaluator) (globals : ConstEnv) (t : RecordType) :
    (t.evaluate ev globals).1.outline = t.outline := by
  rw [← outline_blank, blank_evaluate, outline_blank]

theorem names_constants_blank (t : RecordType) :
    t.blank.constants.map (·.name) = t.constants.map (·.name) := by
  rw [blank, List.map_map]
  rfl

theorem names_constants_evaluate (ev : Evaluator) (globals : ConstEnv) (t : RecordType) :
    (t.evaluate ev globals).1.constants.map (·.name) = t.constants.map (·.name) := by
  rw [← names_constants_blank, blank_evaluate, names_constants_blank]

end RecordType

namespace TypeStore

variable {s s' s'' : TypeStore}

theorem SameOutline.trans (h : SameOutline s s') (h' : SameOutline s' s'') : SameOutline s s'' :=
  ⟨h.types.trans h'.types, h.constants.trans h'.constants⟩

theorem SameOutline.symm (h : SameOutline s s') : SameOutline s' s :=
  ⟨h.types.symm, h.constants.symm⟩

theorem outline_blank (s : TypeStore) : SameOutline s.blank s := by
  constructor
  · change (s.types.map RecordType.blank).map RecordType.outline = _
    rw [List.map_map]
    exact List.map_congr_left fun t _ => t.outline_blank
  · change (s.constants.map Constant.blank).map (·.name) = _
    rw [List.map_map]
    rfl

theorem outline_evaluate (ev : Evaluator) (s : TypeStore) : SameOutline (s.evaluate ev).1 s := by
  have hsame := (s.evaluate ev).1.outline_blank.symm
  rw [s.blank_evaluate ev] at hsame
  exact hsame.trans s.outline_blank

/-! ## Signatures -/

theorem outline_withSignatures (h : s.withSignatures = .ok s') : SameOutline s' s := by
  have hsigned : ∀ t, (s.signed t).outline = t.outline := by
    intro t
    unfold signed
    split <;> rfl
  unfold withSignatures at h
  cases hcheck : s.checkHeaders [] s.types with
  | error e =>
    rw [hcheck] at h
    cases h
  | ok u =>
    rw [hcheck] at h
    cases h
    refine ⟨?_, rfl⟩
    change (s.types.map s.signed).map _ = _
    rw [List.map_map]
    exact List.map_congr_left fun t _ => hsigned t

/-! ## Equal outlines -/

theorem SameOutline.names (h : SameOutline s s') :
    s.types.map (·.name) = s'.types.map (·.name) := by
  have hnames := congrArg (List.map Prod.fst) h.types
  rwa [List.map_map, List.map_map] at hnames

theorem SameOutline.get? (h : SameOutline s s') (name : String) :
    (s.get? name).map RecordType.outline = (s'.get? name).map RecordType.outline := by
  have hfind : ∀ s : TypeStore, (s.get? name).map RecordType.outline =
      (s.types.map RecordType.outline).find? (·.1 = name) := by
    intro s
    rw [List.find?_map]
    rfl
  rw [hfind, hfind, h.types]

/-- A record type of the one store, found in the other. -/
theorem SameOutline.exists_get? (h : SameOutline s s') {name : String} {t : RecordType}
    (ht : s.get? name = some t) :
    ∃ t', s'.get? name = some t' ∧ t'.name = t.name ∧ t'.kind = t.kind
      ∧ Field.shape t'.fields = Field.shape t.fields
      ∧ t'.init.map Field.shape = t.init.map Field.shape := by
  have hsame := h.get? name
  rw [ht, Option.map_some, eq_comm, Option.map_eq_some_iff] at hsame
  obtain ⟨t', ht', houtline⟩ := hsame
  simp only [RecordType.outline, Prod.mk.injEq] at houtline
  exact ⟨t', ht', houtline⟩

theorem SameOutline.shape_eq (h : SameOutline s s') : s.shape = s'.shape := by
  funext name
  have hsame := congrArg (Option.map fun outline => outline.2.2.1) (h.get? name)
  rw [Option.map_map, Option.map_map] at hsame
  exact hsame

end TypeStore
end CellPack
