import Mathlib
import CellPack.Proofs.Analysed
import CellPack.Proofs.Locality
import CellPack.Proofs.Schemas
/-!
# Order of declaration

What an analysis finds out does not depend on the order in which record types are declared
(`TypeStore.analyze_reordered`). Each pass is brought to a form in which the order does not show:
what it takes to succeed is said of all types, and what comes out is found by name.
-/

namespace CellPack

open Relation

namespace TypeStore

variable {s s' : TypeStore} {ev : Evaluator}

/-- Two stores have the same constants, and the same record types in some order. -/
structure Reorders (s s' : TypeStore) : Prop where
  types : s.types.Perm s'.types
  constants : s.constants = s'.constants

theorem Reorders.symm (h : Reorders s s') : Reorders s' s := ⟨h.types.symm, h.constants.symm⟩

/-! ## Record types by name -/

theorem get?_eq_some_iff {name : String} {t : RecordType} :
    s.get? name = some t ↔ t ∈ s.types ∧ t.name = name := by
  refine ⟨fun h => ⟨mem_of_get? h, name_of_get? h⟩, ?_⟩
  rintro ⟨ht, rfl⟩
  exact get?_of_mem ht

theorem Reorders.get? (h : Reorders s s') (name : String) : s.get? name = s'.get? name := by
  refine Option.ext fun t => ?_
  rw [get?_eq_some_iff, get?_eq_some_iff, h.types.mem_iff]

theorem Reorders.contains (h : Reorders s s') (name : String) :
    s.contains name = s'.contains name :=
  h.types.any_eq

theorem Reorders.size (h : Reorders s s') : s.size = s'.size := h.types.length_eq

theorem Reorders.sameInputs (h : Reorders s s') (id : LayoutId) : SameInputs s s' id :=
  ⟨by rw [h.get?], fun _ _ _ _ name _ => h.contains name⟩

/-! ## Evaluation -/

theorem evaluateTypes_eq_ok {globals : ConstEnv} {ts : List RecordType} :
    (evaluateTypes ev globals ts).2 = .ok () ↔ ∀ t ∈ ts, (t.evaluate ev globals).2 = .ok () := by
  induction ts with
  | nil => exact ⟨fun _ => by simp, fun _ => rfl⟩
  | cons t ts ih =>
    rw [List.forall_mem_cons, ← ih, evaluateTypes]
    rcases t.evaluate ev globals with ⟨t', e | ⟨⟩⟩ <;> simp

theorem types_evaluateTypes {globals : ConstEnv} {ts : List RecordType}
    (h : (evaluateTypes ev globals ts).2 = .ok ()) :
    (evaluateTypes ev globals ts).1 = ts.map fun t => (t.evaluate ev globals).1 := by
  induction ts with
  | nil => rfl
  | cons t ts ih =>
    obtain ⟨ht, hts⟩ := List.forall_mem_cons.1 (evaluateTypes_eq_ok.1 h)
    unfold evaluateTypes
    rw [List.map_cons]
    rcases heval : t.evaluate ev globals with ⟨t', e | ⟨⟩⟩
    · rw [heval] at ht
      cases ht
    · exact congrArg (t' :: ·) (ih (evaluateTypes_eq_ok.2 hts))

/-- Evaluation succeeds if it does for the constants and then for each record type. -/
theorem evaluate_eq_ok {globals : ConstEnv} :
    (s.evaluate ev).2 = .ok globals ↔ (evaluateConstants ev [] s.constants).2 = .ok globals
      ∧ ∀ t ∈ s.types, (t.evaluate ev globals).2 = .ok () := by
  unfold evaluate
  rcases evaluateConstants ev [] s.constants with ⟨constants, e | globals'⟩
  · simp
  · simp only [Except.ok.injEq]
    rw [← evaluateTypes_eq_ok]
    rcases hts : (evaluateTypes ev globals' s.types).2 with e | ⟨⟩
    · refine ⟨nofun, ?_⟩
      rintro ⟨rfl, h⟩
      rw [hts] at h
      cases h
    · refine ⟨?_, ?_⟩
      · rintro ⟨⟩
        exact ⟨rfl, hts⟩
      · rintro ⟨rfl, -⟩
        rfl

theorem constants_evaluate :
    (s.evaluate ev).1.constants = (evaluateConstants ev [] s.constants).1 := by
  unfold evaluate
  rcases evaluateConstants ev [] s.constants with ⟨constants, e | globals⟩ <;> rfl

theorem types_evaluate {globals : ConstEnv} (h : (s.evaluate ev).2 = .ok globals) :
    (s.evaluate ev).1.types = s.types.map fun t => (t.evaluate ev globals).1 := by
  obtain ⟨hconstants, htypes⟩ := evaluate_eq_ok.1 h
  unfold evaluate
  rcases hc : evaluateConstants ev [] s.constants with ⟨constants, e | globals'⟩
  · rw [hc] at hconstants
    cases hconstants
  · rw [hc] at hconstants
    cases hconstants
    exact types_evaluateTypes (evaluateTypes_eq_ok.2 htypes)

theorem Reorders.evaluate (h : Reorders s s') {globals : ConstEnv}
    (heval : (s.evaluate ev).2 = .ok globals) :
    (s'.evaluate ev).2 = .ok globals ∧ Reorders (s.evaluate ev).1 (s'.evaluate ev).1 := by
  obtain ⟨hconstants, htypes⟩ := evaluate_eq_ok.1 heval
  have heval' : (s'.evaluate ev).2 = .ok globals := by
    refine evaluate_eq_ok.2 ⟨h.constants ▸ hconstants, fun t ht => htypes t ?_⟩
    exact h.types.mem_iff.2 ht
  refine ⟨heval', ?_, ?_⟩
  · rw [types_evaluate heval, types_evaluate heval']
    exact h.types.map _
  · rw [constants_evaluate, constants_evaluate, h.constants]

/-! ## Dependency order -/

theorem Reorders.declares (h : Reorders s s') {name : String} :
    s.Declares name ↔ s'.Declares name := by
  simp only [Declares, h.types.mem_iff]

theorem Reorders.dependsOn (h : Reorders s s') : s.DependsOn = s'.DependsOn := by
  funext a b
  simp only [DependsOn, h.types.mem_iff]

theorem Reorders.resolved (h : Reorders s s') (hres : s.Resolved) : s'.Resolved :=
  fun t ht f hf name hname => h.declares.1 (hres t (h.types.mem_iff.2 ht) f hf name hname)

/-- There is an order if all mentions are resolved and no type depends on itself. -/
theorem Reorders.dependencyOrder (h : Reorders s s') {order : List String}
    (horder : s.dependencyOrder = .ok order) : ∃ order', s'.dependencyOrder = .ok order' := by
  obtain ⟨hres, hordered⟩ := dependencyOrder_ok horder
  cases horder' : s'.dependencyOrder with
  | ok order' => exact ⟨order', rfl⟩
  | error e =>
    rcases dependencyOrder_error horder' with ⟨_, _, _, -, hfirst⟩ | ⟨-, circle, -, hcircle⟩
    · exact absurd (h.resolved hres) hfirst.not_resolved
    · obtain ⟨name, hname⟩ := hcircle.exists_cycle
      rw [← h.dependsOn] at hname
      exact absurd hname (hordered.acyclic name)

/-! ## Signatures -/

theorem Reorders.fieldsSchema (h : Reorders s s') : s.fieldsSchema = s'.fieldsSchema :=
  funext fun _ => SameFields.fieldsSchema ⟨h.size, fun name => by rw [h.get?]⟩ rfl

theorem Reorders.messageHeader (h : Reorders s s') : s.messageHeader = s'.messageHeader := by
  funext t
  unfold TypeStore.messageHeader TypeStore.messageSchema
  rw [h.fieldsSchema]

theorem Reorders.signed (h : Reorders s s') : s.signed = s'.signed := by
  funext t
  unfold TypeStore.signed structSchema messageSchema
  rw [h.messageHeader, h.fieldsSchema]

/-- Both types are no messages, or they have different headers. -/
def OtherHeader (s : TypeStore) (t u : RecordType) : Prop :=
  t.isMessage = true → u.isMessage = true → s.messageHeader t ≠ s.messageHeader u

theorem OtherHeader.symm {t u : RecordType} (h : s.OtherHeader t u) : s.OtherHeader u t :=
  fun hu ht => (h ht hu).symm

instance : Std.Symm s.OtherHeader := ⟨fun _ _ => OtherHeader.symm⟩

/-- Messages with other headers than those seen before, and than each other, pass the check. -/
theorem checkHeaders_of_distinct (ts : List RecordType) :
    ∀ seen, (∀ t ∈ ts, t.isMessage = true → seen.lookup (s.messageHeader t) = none) →
      ts.Pairwise s.OtherHeader → s.checkHeaders seen ts = .ok () := by
  induction ts with
  | nil => exact fun _ _ _ => rfl
  | cons t ts ih =>
    intro seen hseen hdistinct
    obtain ⟨ht, hts⟩ := List.forall_mem_cons.1 hseen
    obtain ⟨hother, hrest⟩ := List.pairwise_cons.1 hdistinct
    unfold checkHeaders
    by_cases hmessage : t.isMessage = true
    · rw [if_pos hmessage]
      simp only [ht hmessage]
      refine ih _ (fun u hu hm => ?_) hrest
      rw [List.lookup_cons, beq_eq_false_iff_ne.2 (hother u hu hmessage hm).symm]
      exact hts u hu hm
    · rw [if_neg hmessage]
      exact ih seen hts hrest

theorem withSignatures_eq_ok {t : TypeStore} (h : s.withSignatures = .ok t) :
    s.types.Pairwise s.OtherHeader ∧ t.types = s.types.map s.signed
      ∧ t.constants = s.constants := by
  obtain ⟨⟨⟩, hcheck, ht⟩ := bind_eq_ok.1 h
  cases ht
  exact ⟨(checkHeaders_ok s.types [] hcheck).2, rfl, rfl⟩

/-- Signing a store fails only for messages with the same header. -/
theorem exists_withSignatures_iff :
    (∃ t, s.withSignatures = .ok t) ↔ s.types.Pairwise s.OtherHeader := by
  constructor
  · rintro ⟨t, ht⟩
    exact (withSignatures_eq_ok ht).1
  · intro hdistinct
    unfold withSignatures
    rw [checkHeaders_of_distinct s.types [] (fun _ _ _ => rfl) hdistinct]
    exact ⟨_, rfl⟩

theorem Reorders.withSignatures (h : Reorders s s') {t : TypeStore}
    (ht : s.withSignatures = .ok t) : ∃ t', s'.withSignatures = .ok t' ∧ Reorders t t' := by
  obtain ⟨hdistinct, htypes, hconstants⟩ := withSignatures_eq_ok ht
  have hdistinct' : s'.types.Pairwise s'.OtherHeader := by
    unfold OtherHeader
    rw [← h.messageHeader]
    exact (h.types.pairwise_iff OtherHeader.symm).1 hdistinct
  obtain ⟨t', ht'⟩ := exists_withSignatures_iff.2 hdistinct'
  obtain ⟨-, htypes', hconstants'⟩ := withSignatures_eq_ok ht'
  refine ⟨t', ht', ?_, ?_⟩
  · rw [htypes, htypes', ← h.signed]
    exact h.types.map _
  · rw [hconstants, hconstants', h.constants]

end TypeStore

/-! ## Layouts -/

/-- The layouts that a record type is given. -/
def RecordType.layoutIds (t : RecordType) : List LayoutId :=
  if t.kind.hasLayout then
    .full t.name :: ((if t.isMessage then [.bounced t.name] else [])
      ++ if t.isContract ∧ t.init.isSome then [.init t.name] else [])
  else []

theorem RecordType.full_mem_layoutIds {t : RecordType} (h : t.kind.hasLayout = true) :
    .full t.name ∈ t.layoutIds := by
  rw [layoutIds, if_pos h]
  exact List.mem_cons_self

/-- What is left of a message or the parameters of a contract, or else the full layout. -/
theorem RecordType.mem_layoutIds {t : RecordType} {id : LayoutId} (h : id ∈ t.layoutIds) :
    t.kind.hasLayout = true ∧ (id = .full t.name ∨ t.isMessage = true ∧ id = .bounced t.name
      ∨ (t.isContract = true ∧ t.init.isSome = true) ∧ id = .init t.name) := by
  unfold layoutIds at h
  by_cases hkind : t.kind.hasLayout = true
  · rw [if_pos hkind, List.mem_cons, List.mem_append] at h
    refine ⟨hkind, h.imp_right (Or.imp (fun h => ?_) fun h => ?_)⟩
    · split at h
      · next hmessage => exact ⟨hmessage, List.mem_singleton.1 h⟩
      · cases h
    · split at h
      · next hparams => exact ⟨hparams, List.mem_singleton.1 h⟩
      · cases h
  · rw [if_neg hkind] at h
    cases h

namespace TypeStore

variable {s s' : TypeStore}

/-- A record type of the store is given the layout under the id. -/
def Wants (s : TypeStore) (id : LayoutId) : Prop := ∃ t ∈ s.types, id ∈ t.layoutIds

theorem Reorders.wants (h : Reorders s s') {id : LayoutId} : s.Wants id ↔ s'.Wants id := by
  simp only [Wants, h.types.mem_iff]

theorem Reorders.layout (h : Reorders s s') (id : LayoutId) : s.layout id = s'.layout id :=
  layout_congr (h.sameInputs id) fun name _ => h.sameInputs (.full name)

/-- All that fields and parameters mention are types that a field can have. -/
def MentionsFields (s : TypeStore) : Prop :=
  ∀ t ∈ s.types, ∀ f ∈ t.allFields, ∀ name ∈ f.type.mentioned, s.isFieldType name = true

/-- With a layout, the layouts that it needs are given as well. -/
theorem MentionsFields.wants (h : s.MentionsFields) (id : LayoutId) (name : String)
    (hid : s.Wants id) (hname : s.Needs id name) : s.Wants (.full name) := by
  have hfield {t : RecordType} (ht : t ∈ s.types) {f : Field} (hf : f ∈ t.allFields)
      (htype : f.type = .record name) : s.Wants (.full name) := by
    have hmentioned : name ∈ f.type.mentioned := by simp [htype, FieldType.mentioned]
    obtain ⟨u, hu, rfl, hkind⟩ := isFieldType_iff.1 (h t ht f hf name hmentioned)
    refine ⟨u, hu, RecordType.full_mem_layoutIds ?_⟩
    rcases hkind with hkind | hkind <;> rw [hkind] <;> rfl
  cases id with
  | full a =>
    obtain ⟨t, ht, f, hf, htype⟩ := hname
    exact hfield (mem_of_get? ht) (List.mem_append_left _ hf) htype
  | init a =>
    obtain ⟨t, ht, f, hf, htype⟩ := hname
    exact hfield (mem_of_get? ht) (List.mem_append_right _ hf) htype
  | bounced a =>
    obtain rfl : name = a := hname
    obtain ⟨t, ht, hmem⟩ := hid
    obtain ⟨hkind, h | ⟨-, h⟩ | ⟨-, h⟩⟩ := RecordType.mem_layoutIds hmem
    · cases h
    · cases h
      exact ⟨t, ht, RecordType.full_mem_layoutIds hkind⟩
    · cases h

end TypeStore

namespace LayoutCache

variable {s s' : TypeStore} {P : LayoutId → Prop} {c c' : LayoutCache} {order : List String}

theorem requestType_eq (s : TypeStore) (t : RecordType) :
    requestType s t = t.layoutIds.forM fun id => discard (request s id) := by
  unfold requestType RecordType.layoutIds
  by_cases hkind : t.kind.hasLayout = true
  · rw [if_pos hkind, if_pos hkind]
    by_cases hmessage : t.isMessage = true <;>
      by_cases hinit : t.isContract = true ∧ t.init.isSome = true <;>
      simp [hmessage, hinit]
  · rw [if_neg hkind, if_neg hkind]
    rfl

theorem Serves.has {t : RecordType} {id : LayoutId} (h : c.Serves t) (hid : id ∈ t.layoutIds) :
    c.Has id := by
  obtain ⟨hkind, hcases⟩ := RecordType.mem_layoutIds hid
  obtain ⟨hfull, hbounced, hinit⟩ := h hkind
  rcases hcases with rfl | ⟨hmessage, rfl⟩ | ⟨hparams, rfl⟩
  · exact hfull
  · exact hbounced hmessage
  · exact hinit hparams

/-- Requests of record types fail only for a layout that is not found. -/
theorem ends_requestTypes (hclosed : ∀ id name, P id → s.Needs id name → P (.full name))
    (ts : List RecordType) (hts : ∀ t ∈ ts, ∀ id ∈ t.layoutIds, P id) :
    Step.Ends (ts.forM (requestType s)) {} (fun _ c => Ahead s P {} c)
      fun e _ => ∃ t ∈ ts, ∃ id ∈ t.layoutIds, s.layout id = .error e := by
  refine Step.ends_forM (fun t ht c hc => ?_) (ahead_empty s P)
  rw [requestType_eq]
  refine Step.ends_forM (fun id hid c hc => ?_) hc
  obtain ⟨hresult, hahead⟩ :=
    answers_request hclosed (.refl hc.valid hc.sound) (hts t ht id hid) hc.inProgress
  rcases hrun : (request s id).run c with ⟨r, c'⟩
  rw [hrun] at hresult hahead
  cases r with
  | error e => exact .of_error (Step.run_bind_error hrun) ⟨t, ht, id, hid, hresult.symm⟩
  | ok l => exact .of_ok (Step.run_bind_ok hrun) (hc.trans hahead)

theorem sound_ofOrder (hclosed : ∀ id name, P id → s.Needs id name → P (.full name))
    (hall : ∀ t ∈ s.types, ∀ id ∈ t.layoutIds, P id) (h : ofOrder s order = .ok c) :
    Sound s P c := by
  have hends := ends_requestTypes hclosed (order.filterMap s.get?) fun t ht => by
    obtain ⟨name, -, hget⟩ := List.mem_filterMap.1 ht
    exact hall t (TypeStore.mem_of_get? hget)
  unfold ofOrder at h
  dsimp only at h
  split at h
  · next hrun =>
    cases h
    exact (hends.ok_of_run hrun).sound
  · cases h

theorem exists_ofOrder (h : ∀ id, s.Wants id → ∃ l, s.layout id = .ok l) (order : List String) :
    ∃ c, ofOrder s order = .ok c := by
  have hends := ends_requestTypes (s := s) (P := fun _ => True) (fun _ _ _ _ => trivial)
    (order.filterMap s.get?) fun _ _ _ _ => trivial
  unfold ofOrder
  dsimp only
  split
  · exact ⟨_, rfl⟩
  · next e c hrun =>
    obtain ⟨t, ht, id, hid, he⟩ := hends.bad_of_run hrun
    obtain ⟨name, -, hget⟩ := List.mem_filterMap.1 ht
    obtain ⟨l, hl⟩ := h id ⟨t, TypeStore.mem_of_get? hget, hid⟩
    rw [hl] at he
    cases he

end LayoutCache

/-! ## Analyses -/

namespace TypeStore

variable {s s' : TypeStore} {ev : Evaluator} {a a' : Analysis}

/-- An analysed store has the layouts that its record types are given, and no others. -/
theorem get?_layouts (h : s.analyze ev = .ok a) {id : LayoutId} {l : Layout} :
    a.layouts.get? id = some l ↔ a.store.Wants id ∧ a.store.layout id = .ok l := by
  have ha := analyze_ok h
  have hmentions : a.store.MentionsFields := ha.mentioned
  obtain ⟨-, -, -, hlayouts⟩ := analyze_eq_ok.1 h
  have hsound : LayoutCache.Sound a.store a.store.Wants a.layouts :=
    LayoutCache.sound_ofOrder hmentions.wants (fun t ht id hid => ⟨t, ht, hid⟩) hlayouts
  constructor
  · exact fun hl => hsound _ (Table.mem_of_get? hl)
  · rintro ⟨⟨t, ht, hid⟩, hl⟩
    obtain ⟨l', hl'⟩ := (ha.serves t ht).has hid
    rw [hsound.layout hl'] at hl
    rw [hl', Except.ok.inj hl]

/-- The analysed stores are the same in another order, and so are the values of constants. -/
theorem Reorders.analyzed (h : Reorders s s') (ha : s.analyze ev = .ok a)
    (ha' : s'.analyze ev = .ok a') : a.constants = a'.constants ∧ Reorders a.store a'.store := by
  obtain ⟨hevaluated, -, hsigned, -⟩ := analyze_eq_ok.1 ha
  obtain ⟨hevaluated', -, hsigned', -⟩ := analyze_eq_ok.1 ha'
  obtain ⟨hconstants, hreorders⟩ := h.evaluate hevaluated
  obtain ⟨store, hstore, hsame⟩ := hreorders.withSignatures hsigned
  refine ⟨Except.ok.inj (hconstants.symm.trans hevaluated'), ?_⟩
  rwa [← Except.ok.inj (hstore.symm.trans hsigned')]

theorem Reorders.analyze (h : Reorders s s') (ha : s.analyze ev = .ok a) :
    ∃ a', s'.analyze ev = .ok a' := by
  obtain ⟨hevaluated, horder, hsigned, -⟩ := analyze_eq_ok.1 ha
  obtain ⟨hconstants, hreorders⟩ := h.evaluate hevaluated
  obtain ⟨order, horder'⟩ := hreorders.dependencyOrder horder
  obtain ⟨store, hstore, hsame⟩ := hreorders.withSignatures hsigned
  have hfound : ∀ id, store.Wants id → ∃ l, store.layout id = .ok l := by
    intro id hid
    obtain ⟨t, ht, hmem⟩ := hsame.wants.2 hid
    obtain ⟨l, hl⟩ := ((analyze_ok ha).serves t ht).has hmem
    exact ⟨l, hsame.layout id ▸ ((get?_layouts ha).1 hl).2⟩
  obtain ⟨layouts, hlayouts⟩ := LayoutCache.exists_ofOrder hfound order
  exact ⟨⟨store, a.constants, order, layouts⟩,
    analyze_eq_ok.2 ⟨hconstants, horder', hstore, hlayouts⟩⟩

/--
A store can be analysed if it can with its record types in another order. Then the constants have
the same values, each record type has the same values, schema and header, and each id has the same
layout or none.
-/
theorem analyze_reordered (htypes : s.types.Perm s'.types) (hconstants : s.constants = s'.constants)
    (ev : Evaluator) :
    ((∃ a, s.analyze ev = .ok a) ↔ ∃ a', s'.analyze ev = .ok a')
      ∧ ∀ a a', s.analyze ev = .ok a → s'.analyze ev = .ok a' →
        a.constants = a'.constants ∧ a.store.constants = a'.store.constants
          ∧ (∀ name, a.store.get? name = a'.store.get? name)
          ∧ ∀ id, a.layouts.get? id = a'.layouts.get? id := by
  have h : Reorders s s' := ⟨htypes, hconstants⟩
  refine ⟨⟨fun ⟨a, ha⟩ => h.analyze ha, fun ⟨a', ha'⟩ => h.symm.analyze ha'⟩, ?_⟩
  intro a a' ha ha'
  obtain ⟨hvalues, hsame⟩ := h.analyzed ha ha'
  refine ⟨hvalues, hsame.constants, hsame.get?, fun id => Option.ext fun l => ?_⟩
  rw [get?_layouts ha, get?_layouts ha', hsame.wants, hsame.layout]

/-- The record types of `sampleStore` from the last to the first. -/
def sampleReversed : TypeStore where
  types := sampleStore.types.reverse
  types_distinct := by decide

theorem analyze_reordered_sample : ∃ a a', sampleStore.analyze Expr.evaluate = .ok a
    ∧ sampleReversed.analyze Expr.evaluate = .ok a'
    ∧ a.layouts.get? (.bounced "Pay") = a'.layouts.get? (.bounced "Pay") := by
  have hperm : sampleStore.types.Perm sampleReversed.types := (List.reverse_perm _).symm
  obtain ⟨a, ha⟩ : ∃ a, sampleStore.analyze Expr.evaluate = .ok a :=
    exists_of_isOk (by decide +kernel)
  obtain ⟨hiff, hsame⟩ := analyze_reordered hperm rfl Expr.evaluate
  obtain ⟨a', ha'⟩ := hiff.1 ⟨a, ha⟩
  exact ⟨a, a', ha, ha', (hsame a a' ha ha').2.2.2 _⟩

end TypeStore
end CellPack
