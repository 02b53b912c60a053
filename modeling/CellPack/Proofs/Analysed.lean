import Mathlib
import CellPack.Artifact
import CellPack.Proofs.Dependencies
import CellPack.Proofs.Headers
import CellPack.Proofs.Layouts
import CellPack.Proofs.Outline
/-!
# Analysed stores

An analysis that succeeds has listed all record types, each with types in its fields that a field
can have, has a layout for every one that needs it, and a header of its own for every message.
-/

namespace CellPack

/-! ## Order -/

namespace TypeStore

variable {s : TypeStore} {order : List String} {t : RecordType}

/-- All types that a field or a parameter mentions are declared as ones of fields. -/
theorem isFieldType_of_mentioned (h : s.dependencyOrder = .ok order) (ht : t ∈ s.types)
    {f : Field} (hf : f ∈ t.allFields) {name : String} (hname : name ∈ f.type.mentioned) :
    s.isFieldType name = true :=
  isFieldType_iff.2 ((dependencyOrder_ok h).1 t ht f hf name hname)

end TypeStore

/-! ## Layouts -/

namespace LayoutCache

variable {s : TypeStore} {c c' : LayoutCache}

/-- The cache has the layout of the id. -/
def Has (c : LayoutCache) (id : LayoutId) : Prop := ∃ l, c.get? id = some l

theorem Has.mono {id : LayoutId} (h : c.Has id) (hgrow : Grows c c') : c'.Has id := by
  obtain ⟨l, hl⟩ := h
  exact ⟨l, hgrow.get? _ l hl⟩

/--
The cache has the full layout of a record type, for a message what is left of it, and for a contract
that has parameters their layout.
-/
def Serves (c : LayoutCache) (t : RecordType) : Prop :=
  t.kind.hasLayout = true →
    c.Has (.full t.name) ∧ (t.isMessage = true → c.Has (.bounced t.name))
      ∧ (t.isContract = true ∧ t.init.isSome = true → c.Has (.init t.name))

theorem Serves.mono {t : RecordType} (h : c.Serves t) (hgrow : Grows c c') : c'.Serves t := by
  intro hkind
  obtain ⟨hfull, hbounced, hinit⟩ := h hkind
  exact ⟨hfull.mono hgrow, fun hm => (hbounced hm).mono hgrow, fun hc => (hinit hc).mono hgrow⟩

theorem keeps_discard (id : LayoutId) (hc : Valid s c) :
    Keeps s (discard (request s id)) c fun _ c' => c'.Has id := by
  refine (keeps_request s id hc).bind fun l c' _ hc' hl => ?_
  exact keeps_pure hc' ⟨l, hl⟩

/-- A layout that is only requested under a condition. -/
theorem keeps_discard_if {p : Prop} [Decidable p] (id : LayoutId) (hc : Valid s c) :
    Keeps s (if p then discard (request s id) else pure ()) c fun _ c' => p → c'.Has id := by
  by_cases hp : p
  · rw [if_pos hp]
    refine (keeps_discard id hc).mono (fun _ c' h => ?_) fun _ _ h => h
    exact ⟨h.1, h.2.1, fun _ => h.2.2⟩
  · rw [if_neg hp]
    exact keeps_pure hc fun h => absurd h hp

theorem keeps_requestType (t : RecordType) (hc : Valid s c) :
    Keeps s (requestType s t) c fun _ c' => c'.Serves t := by
  unfold requestType
  by_cases hkind : t.kind.hasLayout = true
  · rw [if_pos hkind]
    refine (keeps_discard (.full t.name) hc).bind fun _ c₁ _ hc₁ hfull => ?_
    have hinit (c : LayoutCache) (hc : Valid s c) :=
      keeps_discard_if (p := t.isContract ∧ t.init.isSome) (.init t.name) hc
    -- later requests take nothing away
    by_cases hmessage : t.isMessage = true
    · simp only [if_pos hmessage]
      refine (keeps_discard (.bounced t.name) hc₁).bind fun _ c₂ hgrow₂ hc₂ hbounced => ?_
      refine (hinit c₂ hc₂).mono (fun _ c₃ h => ?_) fun _ _ h => h
      obtain ⟨hgrow₃, hc₃, hparams⟩ := h
      refine ⟨hgrow₃, hc₃, fun _ => ⟨(hfull.mono hgrow₂).mono hgrow₃, fun _ => ?_, hparams⟩⟩
      exact hbounced.mono hgrow₃
    · simp only [if_neg hmessage]
      refine (hinit c₁ hc₁).mono (fun _ c₂ h => ?_) fun _ _ h => h
      obtain ⟨hgrow₂, hc₂, hparams⟩ := h
      exact ⟨hgrow₂, hc₂, fun _ => ⟨hfull.mono hgrow₂, fun h => absurd h hmessage, hparams⟩⟩
  · rw [if_neg hkind]
    exact keeps_pure hc fun h => absurd h hkind

theorem keeps_requestTypes (ts : List RecordType) :
    ∀ c, Valid s c → Keeps s (forM ts (requestType s)) c fun _ c' => ∀ t ∈ ts, c'.Serves t := by
  induction ts with
  | nil => exact fun c hc => keeps_pure hc (by simp)
  | cons t ts ih =>
    intro c hc
    rw [List.forM_cons]
    refine (keeps_requestType t hc).bind fun _ c' _ hc' ht => ?_
    refine (ih c' hc').mono (fun _ c'' h => ?_) fun _ _ h => h
    obtain ⟨hgrow, hc'', hts⟩ := h
    exact ⟨hgrow, hc'', List.forall_mem_cons.2 ⟨ht.mono hgrow, hts⟩⟩

theorem ofOrder_ok {order : List String} (h : ofOrder s order = .ok c) :
    Valid s c ∧ ∀ t ∈ order.filterMap s.get?, c.Serves t := by
  have hkeeps := keeps_requestTypes (order.filterMap s.get?) {} (valid_empty s)
  unfold ofOrder at h
  dsimp only at h
  split at h
  · next hrun =>
    cases h
    exact (hkeeps.ok_of_run hrun).2
  · cases h

end LayoutCache

/-! ## Analyses -/

/-- What an analysis of a store has found out. -/
structure Analysis.Of (s : TypeStore) (a : Analysis) : Prop where
  outline : a.store.SameOutline s
  mentioned : ∀ t ∈ a.store.types, ∀ f ∈ t.allFields, ∀ name ∈ f.type.mentioned,
    a.store.isFieldType name = true
  ordered : ∀ t ∈ a.store.types, t ∈ a.orderedTypes
  valid : LayoutCache.Valid a.store a.layouts
  serves : ∀ t ∈ a.store.types, a.layouts.Serves t
  headers : a.store.OwnHeaders

namespace TypeStore

variable {s : TypeStore} {ev : Evaluator} {a : Analysis}

theorem analyze_eq_ok : s.analyze ev = .ok a ↔ (s.evaluate ev).2 = .ok a.constants
    ∧ (s.evaluate ev).1.dependencyOrder = .ok a.order
    ∧ (s.evaluate ev).1.withSignatures = .ok a.store
    ∧ LayoutCache.ofOrder a.store a.order = .ok a.layouts := by
  unfold analyze
  generalize s.evaluate ev = r
  obtain ⟨evaluated, values⟩ := r
  constructor
  · intro h
    obtain ⟨constants, hconstants, h⟩ := bind_eq_ok.1 h
    obtain ⟨order, horder, h⟩ := bind_eq_ok.1 h
    obtain ⟨store, hstore, h⟩ := bind_eq_ok.1 h
    obtain ⟨layouts, hlayouts, h⟩ := bind_eq_ok.1 h
    cases h
    cases values <;> cases hconstants
    exact ⟨rfl, horder, hstore, hlayouts⟩
  · rintro ⟨rfl, horder, hstore, hlayouts⟩
    refine bind_eq_ok.2 ⟨a.constants, rfl, bind_eq_ok.2 ⟨a.order, horder, ?_⟩⟩
    exact bind_eq_ok.2 ⟨a.store, hstore, bind_eq_ok.2 ⟨a.layouts, hlayouts, rfl⟩⟩

/-- The order lists the names of all record types, each once. -/
theorem order_perm (h : s.analyze ev = .ok a) : a.order.Perm (a.store.types.map (·.name)) := by
  obtain ⟨-, horder, hstore, -⟩ := analyze_eq_ok.1 h
  rw [(outline_withSignatures hstore).names]
  exact (dependencyOrder_ok horder).2.perm

theorem names_orderedTypes (h : s.analyze ev = .ok a) :
    a.orderedTypes.map (·.name) = a.order := by
  unfold Analysis.orderedTypes
  rw [List.map_filterMap]
  refine (List.filterMap_congr fun name hname => ?_).trans List.filterMap_some
  obtain ⟨t, ht, rfl⟩ := List.mem_map.1 ((order_perm h).subset hname)
  rw [get?_of_mem ht, Option.map_some]

theorem orderedTypes_perm (h : s.analyze ev = .ok a) : a.orderedTypes.Perm a.store.types := by
  have hall : (a.store.types.map (·.name)).filterMap a.store.get? = a.store.types := by
    rw [List.filterMap_map]
    refine (List.filterMap_congr fun t ht => ?_).trans List.filterMap_some
    exact get?_of_mem ht
  exact hall ▸ (order_perm h).filterMap a.store.get?

theorem analyze_ok (h : s.analyze ev = .ok a) : a.Of s := by
  obtain ⟨-, horder, hstore, hlayouts⟩ := analyze_eq_ok.1 h
  have hsame := outline_withSignatures hstore
  obtain ⟨hvalid, hserves⟩ := LayoutCache.ofOrder_ok hlayouts
  have hordered : ∀ t ∈ a.store.types, t ∈ a.orderedTypes := fun t ht =>
    (orderedTypes_perm h).symm.subset ht
  refine ⟨hsame.trans (outline_evaluate ev s), fun t ht f hf name hname => ?_, hordered, hvalid,
    fun t ht => hserves t (hordered t ht), ownHeaders_withSignatures hstore⟩
  -- the order was found before the store was signed
  obtain ⟨t', ht', -, -, hfields, hinit⟩ := hsame.exists_get? (get?_of_mem ht)
  have hshape : Field.shape t'.allFields = Field.shape t.allFields := by
    rw [RecordType.shape_allFields, RecordType.shape_allFields, hfields, hinit]
  have hfield : (f.name, f.type) ∈ Field.shape t'.allFields := by
    rw [hshape]
    exact List.mem_map_of_mem hf
  obtain ⟨f', hf', heq⟩ := List.mem_map.1 hfield
  have htype : f'.type = f.type := (Prod.ext_iff.1 heq).2
  have hfound := isFieldType_of_mentioned horder (mem_of_get? ht') hf' (htype.symm ▸ hname)
  unfold isFieldType at hfound ⊢
  split at hfound
  · next other hother =>
    obtain ⟨other', hother', -, hkind, -⟩ := hsame.symm.exists_get? hother
    rw [hother']
    exact (congrArg RecordKind.isFieldType hkind).trans hfound
  · cases hfound

end TypeStore
end CellPack
