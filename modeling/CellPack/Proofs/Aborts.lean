import Mathlib
import CellPack.Proofs.Compiled
import CellPack.Proofs.Evaluation
import CellPack.Proofs.Reordering
import CellPack.TypeStore.Json
/-!
# Aborts

No pass behind evaluation says anything about expressions, so a compilation aborts exactly at an
address literal of the store that evaluation cannot read, where it could report that the literal is
invalid (`TypeStore.compile_aborts`).
-/

namespace CellPack

/-! ## Passes behind evaluation -/

namespace CompileError

/-- Whether the error is about the value of an expression. -/
def isEvaluation : CompileError → Bool
  | evaluation _ => true
  | _ => false

/-- The error as it is meant to be reported. -/
def reported : CompileError → CompileError
  | evaluation e => evaluation e.reported
  | e => e

theorem reported_eq {e : CompileError} (h : e.isEvaluation = false) : e.reported = e := by
  cases e with
  | evaluation e => cases h
  | _ => rfl

end CompileError

/-- If it fails, it is not because of the value of an expression. -/
abbrev Structural {α : Type} (x : Except CompileError α) : Prop :=
  FailsWith (fun e => e.isEvaluation = false) x

namespace LayoutCache

/-- Whatever the cache is, a failure is not because of the value of an expression. -/
def StructuralFrom {α : Type} (x : LayoutM α) : Prop := ∀ c : LayoutCache, Structural (x.run c).1

section
variable {α β : Type} {s : TypeStore} {request : String → LayoutM Layout}

theorem structural_pure (a : α) : StructuralFrom (pure a) := fun _ => failsWith_ok a

theorem structural_throw {e : CompileError} (h : e.isEvaluation = false) :
    StructuralFrom (throw e : LayoutM α) := fun _ => failsWith_error h

theorem structural_lift {x : Except CompileError α} (h : Structural x) :
    StructuralFrom (liftM x : LayoutM α) := by
  cases x with
  | error e => exact structural_throw (h e rfl)
  | ok a => exact structural_pure a

theorem StructuralFrom.bind {x : LayoutM α} {f : α → LayoutM β} (h : StructuralFrom x)
    (hf : ∀ a, StructuralFrom (f a)) : StructuralFrom (x >>= f) := by
  intro c
  rcases hrun : x.run c with ⟨e | a, c'⟩
  · rw [Step.run_bind_error hrun]
    exact failsWith_error (h c e (congrArg Prod.fst hrun))
  · rw [Step.run_bind_ok hrun]
    exact hf a c'

theorem structural_forM {ι : Type} {f : ι → LayoutM Unit} (h : ∀ i, StructuralFrom (f i))
    (is : List ι) : StructuralFrom (is.forM f) := by
  induction is with
  | nil => exact structural_pure ()
  | cons i is ih => exact (h i).bind fun _ => ih

theorem structural_checkPayload (typeName field : String) (size : CellSize) :
    Structural (checkPayload typeName field size) := by
  unfold checkPayload
  split
  · exact failsWith_error rfl
  · split
    · exact failsWith_error rfl
    · exact failsWith_ok ()

theorem structural_checkResolved (typeName : String) (f : Field) :
    Structural (checkResolved s typeName f) := by
  unfold checkResolved
  split
  · split
    · exact failsWith_ok ()
    · exact failsWith_error rfl
  · exact failsWith_ok ()

variable (hrequest : ∀ name, StructuralFrom (request name))

include hrequest

theorem structural_fieldCost (current : LayoutCell) (type : FieldType) :
    StructuralFrom (fieldCost request current type) := by
  unfold fieldCost
  cases type.lower with
  | fixed op size payload => exact structural_pure _
  | nested name => exact (hrequest name).bind fun l => structural_pure _

theorem structural_placeFields (typeName : String) (fields : List Field) :
    ∀ current, StructuralFrom (placeFields s request typeName current fields) := by
  induction fields with
  | nil => exact fun current => structural_pure _
  | cons f rest ih =>
    intro current
    unfold placeFields
    refine (structural_lift (structural_checkResolved typeName f)).bind fun _ => ?_
    refine (structural_fieldCost hrequest current f.type).bind ?_
    rintro ⟨op, size, payload⟩
    refine (structural_lift (structural_checkPayload typeName f.name payload)).bind fun _ => ?_
    by_cases hfit : current.canFit size = true
    · rw [if_pos hfit]
      exact ih _
    · rw [if_neg hfit]
      refine (structural_lift (structural_checkPayload typeName f.name size)).bind fun _ => ?_
      exact (ih _).bind fun cells => structural_pure _

theorem structural_computeLayout (id : LayoutId) :
    StructuralFrom (computeLayout s request id) := by
  have hfields (t : RecordType) (header : Option UInt32) (fields : List Field) :
      StructuralFrom (layoutFields s request id t header fields) :=
    (structural_placeFields hrequest id.typeName fields _).bind fun cells => structural_pure _
  unfold computeLayout
  cases s.get? id.typeName with
  | none => exact structural_throw rfl
  | some t =>
    cases id with
    | full name => exact hfields t _ t.fields
    | init name => exact hfields t none _
    | bounced name => exact (hrequest name).bind fun full => structural_pure _

end

theorem structural_ensure (s : TypeStore) (depth : Nat) :
    ∀ id, StructuralFrom (ensure s depth id) := by
  induction depth with
  | zero =>
    intro id c
    cases hget : c.get? id with
    | some l =>
      rw [run_ensure_cached 0 hget]
      exact failsWith_ok l
    | none =>
      by_cases hmem : id ∈ c.inProgress
      · rw [run_ensure_pending 0 hget hmem]
        exact failsWith_error rfl
      · rw [run_ensure_zero hget hmem]
        exact failsWith_error rfl
  | succ depth ih =>
    intro id c
    cases hget : c.get? id with
    | some l =>
      rw [run_ensure_cached _ hget]
      exact failsWith_ok l
    | none =>
      by_cases hmem : id ∈ c.inProgress
      · rw [run_ensure_pending _ hget hmem]
        exact failsWith_error rfl
      -- requests in the computation are one level deeper
      · rw [run_ensure_new hget hmem rfl]
        exact structural_computeLayout (fun name => ih (.full name)) id (c.started id)

theorem structural_ofOrder (s : TypeStore) (order : List String) :
    Structural (ofOrder s order) := by
  have htype (t : RecordType) : StructuralFrom (requestType s t) := by
    rw [requestType_eq]
    refine structural_forM (fun id => ?_) t.layoutIds
    exact (structural_ensure s _ id).bind fun l => structural_pure ()
  have hrun := structural_forM htype (order.filterMap s.get?) {}
  unfold ofOrder
  dsimp only
  split
  · exact failsWith_ok _
  · next e c h => exact failsWith_error (hrun e (congrArg Prod.fst h))

end LayoutCache

namespace TypeStore

variable {s : TypeStore}

theorem structural_dependencyOrder (s : TypeStore) : Structural s.dependencyOrder := by
  intro e he
  rcases dependencyOrder_error he with ⟨_, _, _, rfl, -⟩ | ⟨-, _, rfl, -⟩ <;> rfl

theorem structural_withSignatures (s : TypeStore) : Structural s.withSignatures := by
  have hcheck (ts : List RecordType) : ∀ seen, Structural (s.checkHeaders seen ts) := by
    induction ts with
    | nil => exact fun _ => failsWith_ok ()
    | cons t ts ih =>
      intro seen
      unfold checkHeaders
      split
      · dsimp only
        split
        · exact failsWith_error rfl
        · exact ih _
      · exact ih seen
  exact (hcheck s.types []).bind fun _ => failsWith_ok _

/-- The analysis of a store that has been evaluated. -/
def analyzeEvaluated (s : TypeStore) (constants : ConstEnv) : Except CompileError Analysis := do
  let order ← s.dependencyOrder
  let store ← s.withSignatures
  let layouts ← LayoutCache.ofOrder store order
  .ok { store, constants, order, layouts }

theorem structural_analyzeEvaluated (s : TypeStore) (constants : ConstEnv) :
    Structural (s.analyzeEvaluated constants) := by
  refine s.structural_dependencyOrder.bind fun order => ?_
  refine s.structural_withSignatures.bind fun store => ?_
  exact (LayoutCache.structural_ofOrder store order).bind fun layouts => failsWith_ok _

theorem analyze_eq (s : TypeStore) (ev : Evaluator) :
    s.analyze ev = (s.evaluate ev).2.mapError .evaluation >>= (s.evaluate ev).1.analyzeEvaluated :=
  rfl

end TypeStore

theorem Analysis.structural_artifact (a : Analysis) (o : CompileOptions) (emitter : Emitter)
    (addresser : Addresser) : Structural (a.artifact o emitter addresser) := by
  have hentry : Structural (a.entry? o.entry) := by
    unfold entry?
    split
    · exact failsWith_ok _
    · exact failsWith_error rfl
  exact hentry.bind fun entry => failsWith_ok _

/-! ## Compilation -/

theorem mapError_eq_self {α : Type} {x : Except CompileError α} (h : Structural x) :
    x.mapError CompileError.reported = x := by
  cases x with
  | error e => exact congrArg Except.error (CompileError.reported_eq (h e rfl))
  | ok a => rfl

namespace TypeStore

section
variable (ev : Evaluator) (s : TypeStore)

theorem analyze_reported :
    s.analyze ev.reported = (s.analyze ev).mapError CompileError.reported := by
  rw [analyze_eq, analyze_eq, evaluate_reported]
  rcases s.evaluate ev with ⟨evaluated, e | constants⟩
  · rfl
  · exact (mapError_eq_self (evaluated.structural_analyzeEvaluated constants)).symm

theorem compile_reported (o : CompileOptions) (tools : Toolchain) :
    s.compile o { tools with evaluator := tools.evaluator.reported } =
      (s.compile o tools).mapError CompileError.reported := by
  unfold compile
  split
  · rw [analyze_reported]
    cases s.analyze tools.evaluator with
    | error e => rfl
    | ok a => exact (mapError_eq_self (a.structural_artifact o tools.emitter tools.addresser)).symm
  · rfl

end

/-- What a compilation says about an address, it says about a literal of the store. -/
theorem explained_compile (s : TypeStore) (o : CompileOptions) {e : EvalError}
    (h : s.compile o = .error (.evaluation e)) : e.Explained s.addresses := by
  have hpass {α : Type} {x : Except CompileError α} (hx : Structural x) :
      x ≠ .error (.evaluation e) := fun he => nomatch hx _ he
  unfold compile at h
  split at h
  · rw [analyze_eq] at h
    cases hevaluate : (s.evaluate Expr.evaluate).2 with
    | error e' =>
      rw [hevaluate] at h
      cases h
      exact s.explained_evaluate e hevaluate
    | ok constants =>
      rw [hevaluate] at h
      refine absurd h (hpass ?_)
      exact ((s.evaluate Expr.evaluate).1.structural_analyzeEvaluated constants).bind fun a =>
        a.structural_artifact o _ _
  · cases h

/--
With the usual evaluation, a compilation aborts at an address literal exactly where it could report
the literal as invalid, if a chunk of the hash ends inside a character. It is a literal of the store.
-/
theorem compile_aborts (s : TypeStore) (o : CompileOptions) (text : String) :
    (s.compile o = .error (.evaluation (.brokenAddress text)) ↔
        s.compile o { evaluator := Expr.evaluate.reported } =
          .error (.evaluation (.invalidAddress text)) ∧ Address.CutText text)
      ∧ (s.compile o = .error (.evaluation (.brokenAddress text)) → text ∈ s.addresses) := by
  have hreported : s.compile o { evaluator := Expr.evaluate.reported } =
      (s.compile o).mapError CompileError.reported := compile_reported s o {}
  rw [hreported]
  refine ⟨⟨fun h => ?_, fun ⟨h, hcut⟩ => ?_⟩, fun h => (explained_compile s o h).1⟩
  · refine ⟨?_, (explained_compile s o h).2⟩
    rw [h]
    rfl
  · cases hcompile : s.compile o with
    | ok art =>
      rw [hcompile] at h
      cases h
    | error e =>
      rw [hcompile] at h
      obtain ⟨e', rfl⟩ : ∃ e', e = .evaluation e' := by
        cases e with
        | evaluation e' => exact ⟨e', rfl⟩
        | _ => cases h
      have hexplained := explained_compile s o hcompile
      cases e' with
      | brokenAddress other =>
        cases h
        rfl
      | invalidAddress other =>
        cases h
        exact absurd hcut hexplained.2
      | _ => cases h

/-- A constant whose hash has 64 bytes, two of which are one character across two chunks. -/
def sampleCut : TypeStore where
  types :=
    [{ name := "Wallet", kind := .contract, fields := [{ name := "owner", type := .address }] }]
  constants :=
    [{ name := "ROOT", type := .address
       expr := .address "0:aaaaaaaaaaaaaaaaaaaaaaaaaaaaaaaaaaaaaaaaaaaaaaaaaaaaaaaaaaaaaéb" }]

theorem abort_sampleCut : sampleCut.compile { entry := "Wallet" } =
    .error (.evaluation (.brokenAddress
      "0:aaaaaaaaaaaaaaaaaaaaaaaaaaaaaaaaaaaaaaaaaaaaaaaaaaaaaaaaaaaaaéb")) := rfl

theorem compile_aborts_sample :
    ∃ text, sampleCut.compile { entry := "Wallet" } = .error (.evaluation (.brokenAddress text))
      ∧ sampleCut.compile { entry := "Wallet" } { evaluator := Expr.evaluate.reported } =
        .error (.evaluation (.invalidAddress text))
      ∧ text ∈ sampleCut.addresses := by
  obtain ⟨hiff, hmem⟩ := compile_aborts sampleCut { entry := "Wallet" }
    "0:aaaaaaaaaaaaaaaaaaaaaaaaaaaaaaaaaaaaaaaaaaaaaaaaaaaaaaaaaaaaaéb"
  exact ⟨_, abort_sampleCut, (hiff.1 abort_sampleCut).1, hmem abort_sampleCut⟩

/-- Not every store that can be read is compiled or refused with an error of compilation. -/
theorem compile_aborts_cut : ¬∀ (j : Json) (s : TypeStore) (o : CompileOptions),
    TypeStore.ofJson? Json.maxDepth j = .ok s →
      (∃ art, s.compile o = .ok art)
        ∨ ∃ e, s.compile o = .error e ∧ ∀ text, e ≠ .evaluation (.brokenAddress text) := by
  intro h
  let constant : Json := .obj
    [("name", .str "ROOT"), ("type", .obj [("kind", .str "address")]),
      ("value", .obj [("address",
        .str "0:aaaaaaaaaaaaaaaaaaaaaaaaaaaaaaaaaaaaaaaaaaaaaaaaaaaaaaaaaaaaaéb")])]
  let owner : Json := .obj [("name", .str "owner"), ("type", .obj [("kind", .str "address")])]
  let wallet : Json := .obj
    [("name", .str "Wallet"), ("kind", .str "contract"), ("fields", .arr [owner])]
  have hread : TypeStore.ofJson? Json.maxDepth
      (.obj [("types", .arr [wallet]), ("constants", .arr [constant])]) = .ok sampleCut := rfl
  rcases h _ sampleCut { entry := "Wallet" } hread with ⟨art, hart⟩ | ⟨e, he, hne⟩
  · cases abort_sampleCut.symm.trans hart
  · cases abort_sampleCut.symm.trans he
    exact hne _ rfl

end TypeStore
end CellPack
