import Mathlib
import CellPack.Proofs.Oversize
import CellPack.Proofs.Reordering
/-!
# Layouts in dependency order

If the record types can be ordered, the layouts in this order fail for nothing but a field that is too
wide, and otherwise the cache has the layouts that each type is given, in the order of the types and
no others (`LayoutCache.ofOrder_sorted`). What carries this through the requests is that all layouts
that a request needs are in the cache already (`InTurn`), so that it adds its own one at the end.
-/

namespace CellPack

open Relation Step

/-! ## Errors -/

theorem FieldType.mem_mentioned {type : FieldType} {name : String}
    (h : type.withoutOptional = .record name) : name ∈ type.mentioned := by
  induction type with
  | optional inner ih => exact ih h
  | record other =>
    cases h
    exact List.mem_singleton_self name
  | _ => cases h

namespace TypeStore

variable {s : TypeStore} {t : RecordType} {id : LayoutId} {name : String} {path : List String}

/-- The error is that of a field of a record type that is too wide. -/
def TooLarge (s : TypeStore) (e : CompileError) : Prop :=
  ∃ t ∈ s.types, ∃ f ∈ t.allFields, ∃ bits,
    e = .fieldTooLarge t.name f.name bits ∧ f.type.TooWide

theorem Embeds.dependsOn {a b : String} (h : s.Embeds a b) : s.DependsOn a b := by
  obtain ⟨t, ht, f, hf, htype⟩ := h
  exact ⟨t, mem_of_get? ht, name_of_get? ht, f, List.mem_append_left _ hf, htype⟩

/-- An order of the record types says that none contains itself. -/
theorem Ordered.embeds_acyclic {order : List String} (h : s.Ordered order) : s.Acyclic :=
  fun name hcycle => h.acyclic name (TransGen.mono (fun _ _ hab => hab.dependsOn) _ _ hcycle)

theorem Declares.exists_get? (h : s.Declares name) : ∃ t, s.get? name = some t := by
  obtain ⟨t, ht, rfl, -⟩ := h
  exact ⟨t, get?_of_mem ht⟩

theorem Resolved.known (h : s.Resolved) (ht : t ∈ s.types) {f : Field} (hf : f ∈ t.allFields) :
    f.Known s := by
  intro name htype
  obtain ⟨u, hu⟩ := (h t ht f hf name (FieldType.mem_mentioned htype)).exists_get?
  exact contains_of_get? hu

theorem fieldsOf_subset (t : RecordType) (id : LayoutId) : id.fieldsOf t ⊆ t.allFields := by
  cases id with
  | full | bounced => exact List.subset_append_left _ _
  | init => exact List.subset_append_right _ _

/-- Among fields that are all declared, one that is refused is too wide, or its record is refused. -/
theorem tooLarge_of_checks {nested : String → Except CompileError Layout} {fields : List Field}
    {e : CompileError} (hres : s.Resolved) (ht : t ∈ s.types) (hfields : fields ⊆ t.allFields)
    (hnested : ∀ b u e, RecordIn fields b → s.get? b = some u → nested b = .error e → s.TooLarge e)
    (h : forM fields (Field.check s nested t.name) = .error e) : s.TooLarge e := by
  obtain ⟨before, f, after, rfl, -, hcheck⟩ := forM_eq_error h
  have hmem : f ∈ before ++ f :: after := List.mem_append_right _ List.mem_cons_self
  rcases Field.refused_of_check hcheck with hunknown | ⟨-, hwide, bits⟩ | ⟨htype, he⟩
  · exact absurd (hres.known ht (hfields hmem)) hunknown
  · exact ⟨t, ht, f, hfields hmem, bits, rfl, hwide⟩
  · have hrecord := hres t ht f (hfields hmem)
    rw [htype] at hrecord
    obtain ⟨u, hu⟩ := (hrecord _ (List.mem_singleton_self _)).exists_get?
    exact hnested _ u _ ⟨f, hmem, htype⟩ hu he

/-- Below types that contain each other, a layout is refused for nothing but a field too wide. -/
theorem tooLarge_of_layoutBelow {e : CompileError} (hres : s.Resolved)
    (hacyclic : s.Acyclic) (ht : s.get? name = some t)
    (hchain : (path ++ [name]).IsChain s.Embeds) (h : s.layoutBelow path name = .error e) :
    s.TooLarge e := by
  induction path, name using layoutBelow.induct s generalizing t e with
  | case1 path name hmem => exact absurd hmem (hacyclic.not_mem hchain)
  | case2 path name hpath _ ih =>
    have hchecks := layoutBelow_checked ht hpath
    rw [h] at hchecks
    obtain rfl := name_of_get? ht
    refine tooLarge_of_checks hres (mem_of_get? ht) (List.subset_append_left _ _) ?_ hchecks.symm
    exact fun b u e hb hu he => ih b hu (chain_concat hchain ⟨t, ht, hb⟩) he
  | case3 path name _ hcontains => exact absurd (contains_of_get? ht) hcontains

/-- So is any layout of a record type. -/
theorem tooLarge_of_layout {e : CompileError} (hres : s.Resolved)
    (hacyclic : s.Acyclic) (ht : s.get? id.typeName = some t)
    (h : s.layout id = .error e) : s.TooLarge e := by
  have hchecks := layout_checked ht
  rw [h, ← name_of_get? ht] at hchecks
  refine tooLarge_of_checks hres (mem_of_get? ht) (fieldsOf_subset t id) ?_ hchecks.symm
  intro b u e hb hu he
  refine tooLarge_of_layoutBelow hres hacyclic hu ?_ he
  cases id with
  | full name | bounced name => exact List.isChain_pair.2 ⟨t, ht, hb⟩
  | init name => exact List.isChain_singleton b

end TypeStore

/-! ## Requests in turn -/

/-- Each id is a new one, and what its layout needs goes before it. -/
def TypeStore.InTurn (s : TypeStore) : List LayoutId → List LayoutId → Prop
  | _, [] => True
  | done, id :: rest =>
    id ∉ done ∧ (∀ name, s.Needs id name → .full name ∈ done) ∧ s.InTurn (done ++ [id]) rest

namespace TypeStore

variable {s : TypeStore} {done ids ids' : List LayoutId} {t : RecordType}

theorem InTurn.append (h : s.InTurn done ids) (h' : s.InTurn (done ++ ids) ids') :
    s.InTurn done (ids ++ ids') := by
  induction ids generalizing done with
  | nil => simpa using h'
  | cons id ids ih =>
    obtain ⟨hnew, hneeds, hrest⟩ := h
    exact ⟨hnew, hneeds, ih hrest (by simpa using h')⟩

theorem InTurn.nodup (h : s.InTurn done ids) (hdone : done.Nodup) : (done ++ ids).Nodup := by
  induction ids generalizing done with
  | nil => simpa using hdone
  | cons id ids ih =>
    obtain ⟨hnew, -, hrest⟩ := h
    rw [List.append_cons]
    exact ih hrest (List.nodup_append.2 ⟨hdone, by simp, by grind⟩)

theorem inTurn_ite {p : Prop} [Decidable p] (h : p → s.InTurn done ids) :
    s.InTurn done (if p then ids else []) := by
  split
  · next hp => exact h hp
  · trivial

/-- The ids of one record type, behind those of all that it depends on. -/
theorem inTurn_layoutIds (ht : t ∈ s.types) (hnew : ∀ id ∈ done, id.typeName ≠ t.name)
    (hneeds : ∀ b, RecordIn t.allFields b → .full b ∈ done) : s.InTurn done t.layoutIds := by
  have hget := get?_of_mem ht
  have hfresh (id : LayoutId) (hid : id.typeName = t.name) : id ∉ done := fun hmem => hnew id hmem hid
  have hrecord {fields : List Field} (hsub : fields ⊆ t.allFields) {b : String}
      (hb : RecordIn fields b) : .full b ∈ done := by
    obtain ⟨f, hf, htype⟩ := hb
    exact hneeds b ⟨f, hsub hf, htype⟩
  refine inTurn_ite fun _ => ⟨hfresh _ rfl, ?_, InTurn.append ?_ ?_⟩
  · rintro b ⟨u, hu, hb⟩
    obtain rfl : u = t := Option.some.inj (hu.symm.trans hget)
    exact hrecord (List.subset_append_left _ _) hb
  · refine inTurn_ite fun _ => ⟨?_, ?_, trivial⟩
    · simpa using hfresh (.bounced t.name) rfl
    · rintro b rfl
      simp
  · refine inTurn_ite fun _ => ⟨?_, ?_, trivial⟩
    · have hinit := hfresh (.init t.name) rfl
      split <;> simpa using hinit
    · rintro b ⟨u, hu, hb⟩
      obtain rfl : u = t := Option.some.inj (hu.symm.trans hget)
      have hfull := hrecord (List.subset_append_right _ _) hb
      simp [hfull]

theorem typeName_of_mem_layoutIds {id : LayoutId} (h : id ∈ t.layoutIds) : id.typeName = t.name := by
  obtain ⟨-, rfl | ⟨-, rfl⟩ | ⟨-, rfl⟩⟩ := RecordType.mem_layoutIds h <;> rfl

/-- What an ordered name depends on is before it. -/
theorem Ordered.mem_before {before after : List String} {name b : String}
    (h : s.Ordered (before ++ name :: after)) (hb : s.DependsOn name b) : b ∈ before := by
  have hlt := h.behind name b hb
  have hnodup : (before ++ name :: after).Nodup := h.perm.nodup_iff.2 s.types_distinct
  have hname : name ∉ before := fun hmem =>
    (List.nodup_append.1 hnodup).2.2 name hmem name List.mem_cons_self rfl
  rw [List.idxOf_append_of_notMem hname, List.idxOf_cons_self] at hlt
  by_contra hnot
  rw [List.idxOf_append_of_notMem hnot] at hlt
  omega

/-- The ids of ordered record types are in turn. -/
theorem inTurn_of_ordered (hres : s.Resolved) (after : List String) :
    ∀ before, s.Ordered (before ++ after) →
      s.InTurn ((before.filterMap s.get?).flatMap RecordType.layoutIds)
        ((after.filterMap s.get?).flatMap RecordType.layoutIds) := by
  induction after with
  | nil => exact fun _ _ => trivial
  | cons name after ih =>
    intro before hord
    have hmem : name ∈ s.types.map (·.name) :=
      hord.perm.subset (List.mem_append_right _ List.mem_cons_self)
    obtain ⟨t, ht, rfl⟩ := List.mem_map.1 hmem
    have hget := get?_of_mem ht
    rw [List.filterMap_cons_some hget, List.flatMap_cons]
    refine InTurn.append (inTurn_layoutIds ht ?_ ?_) ?_
    · intro id hid heq
      obtain ⟨u, hu, hid⟩ := List.mem_flatMap.1 hid
      obtain ⟨other, hother, hu⟩ := List.mem_filterMap.1 hu
      have hsame : other = t.name := by
        rw [← name_of_get? hu, ← typeName_of_mem_layoutIds hid, heq]
      have hnodup := hord.perm.nodup_iff.2 s.types_distinct
      exact (List.nodup_append.1 hnodup).2.2 other hother t.name List.mem_cons_self hsame
    · rintro b ⟨f, hf, htype⟩
      have hb : b ∈ before := hord.mem_before ⟨t, ht, rfl, f, hf, htype⟩
      have hrecord := hres t ht f hf
      rw [htype] at hrecord
      obtain ⟨u, hu, rfl, hkind⟩ := hrecord b (List.mem_singleton_self b)
      refine List.mem_flatMap.2 ⟨u, List.mem_filterMap.2 ⟨u.name, hb, get?_of_mem hu⟩, ?_⟩
      refine RecordType.full_mem_layoutIds ?_
      rcases hkind with hkind | hkind <;> rw [hkind] <;> rfl
    · have hrest := ih (before ++ [t.name]) (by simpa using hord)
      simpa [List.filterMap_append, List.filterMap_cons_some hget] using hrest

end TypeStore

namespace LayoutCache

variable {s : TypeStore} {c : LayoutCache} {order : List String}

/-- The ids of the layouts, in order of completion. -/
def ids (c : LayoutCache) : List LayoutId := c.entries.map (·.1)

theorem exists_get?_iff {id : LayoutId} : (∃ l, c.get? id = some l) ↔ id ∈ c.ids := by
  rw [ids, ← Table.contains_iff, Table.contains, Option.isSome_iff_exists]
  rfl

/-- A request with all that it needs in the cache adds its own layout at the end. -/
theorem ends_request_inTurn {id : LayoutId} (hc : Ahead s (fun _ => True) {} c) (hnew : id ∉ c.ids)
    (hneeds : ∀ name, s.Needs id name → .full name ∈ c.ids) :
    Ends (discard (request s id)) c
      (fun _ c' => Ahead s (fun _ => True) {} c' ∧ c'.ids = c.ids ++ [id]) fun _ _ => True := by
  have hanswers : Answers s (fun _ => True) (request s id) c (s.layout id) :=
    answers_request (fun _ _ _ _ => trivial) (.refl hc.valid hc.sound) trivial hc.inProgress
  have hget : c.get? id = none := by
    by_contra hne
    exact hnew (exists_get?_iff.1 (Option.ne_none_iff_exists'.1 hne))
  have hid : id ∉ c.inProgress := by
    rw [hc.inProgress]
    exact List.not_mem_nil
  -- nested requests are answered from the cache and leave it as it is
  have halike : Alike (fun c' _ => c' = c.started id)
      (computeLayout s (fun name => ensure s (s.size + 1) (.full name)) id)
      (computeLayout s (fun name => liftM (s.layout (.full name))) id) := by
    refine alike_computeLayout (.refl s id) fun name hname c' d hc' => ?_
    obtain ⟨l, hl⟩ := exists_get?_iff.2 (hneeds name hname)
    have hcached : c'.get? (.full name) = some l := hc' ▸ hl
    rw [run_ensure_cached _ hcached, run_lift, hc.sound.layout hl]
    exact ⟨rfl, hc'⟩
  rcases hrun : (computeLayout s (fun name => ensure s (s.size + 1) (.full name)) id).run (c.started id)
    with ⟨r, c'⟩
  have hsame : c' = c.started id := by
    have := (halike (c.started id) {} rfl).2
    rwa [hrun] at this
  have hend : (request s id).run c = (r, c'.ended id r) := run_ensure_new hget hid hrun
  have hahead := hc.trans hanswers.ahead
  rw [hend] at hahead
  cases r with
  | error e => exact .of_error (run_bind_error hend) trivial
  | ok l =>
    refine .of_ok (run_bind_ok hend) ⟨hahead, ?_⟩
    change (Table.put c'.entries id l).map _ = _
    rw [hsame, Table.put_of_get?_none (show Table.get? (c.started id).entries id = none from hget)]
    exact List.map_append

/-- So requests in turn add their layouts one behind the other. -/
theorem ends_requests_inTurn (todo : List LayoutId) :
    ∀ c, Ahead s (fun _ => True) {} c → s.InTurn c.ids todo →
      Ends (forM todo fun id => discard (request s id)) c (fun _ c' => c'.ids = c.ids ++ todo)
        fun _ _ => True := by
  induction todo with
  | nil => exact fun c _ _ => ends_pure (List.append_nil _).symm
  | cons id todo ih =>
    intro c hc hturn
    obtain ⟨hnew, hneeds, hrest⟩ := hturn
    rw [List.forM_cons]
    refine (ends_request_inTurn hc hnew hneeds).bind fun _ c' ⟨hc', hids⟩ => ?_
    refine (ih c' hc' (hids ▸ hrest)).mono (fun _ c'' h => ?_) fun _ _ h => h
    rw [h, hids, List.append_assoc]
    rfl

theorem names_filterMap (h : ∀ name ∈ order, ∃ t, s.get? name = some t) :
    (order.filterMap s.get?).map (·.name) = order := by
  induction order with
  | nil => rfl
  | cons name order ih =>
    obtain ⟨⟨t, ht⟩, hrest⟩ := List.forall_mem_cons.1 h
    rw [List.filterMap_cons_some ht, List.map_cons, ih hrest, TypeStore.name_of_get? ht]

/--
In dependency order, layouts fail for nothing but a field of a record type that is too wide. If they
do not fail, the cache has the ids that each record type is given, in the order of the types, each
once, and no others.
-/
theorem ofOrder_sorted (h : s.dependencyOrder = .ok order) :
    (∀ e, ofOrder s order = .error e → s.TooLarge e)
      ∧ ∀ c, ofOrder s order = .ok c →
        c.entries.map (·.1) = (order.filterMap s.get?).flatMap RecordType.layoutIds
          ∧ (c.entries.map (·.1)).Nodup
          ∧ (order.filterMap s.get?).map (·.name) = order := by
  obtain ⟨hres, hord⟩ := TypeStore.dependencyOrder_ok h
  have hfails := ends_requestTypes (s := s) (P := fun _ => True) (fun _ _ _ _ => trivial)
    (order.filterMap s.get?) fun _ _ _ _ => trivial
  have hturn := TypeStore.inTurn_of_ordered hres order [] hord
  have hadds := ends_requests_inTurn _ {} (ahead_empty s _) hturn
  have hrequests : (fun t : RecordType => forM t.layoutIds fun id => discard (request s id)) =
      requestType s := funext fun t => (requestType_eq s t).symm
  rw [forM_flatMap, hrequests] at hadds
  unfold ofOrder
  dsimp only
  constructor
  · intro e he
    split at he
    · cases he
    · next e' c hrun =>
      cases he
      obtain ⟨t, ht, id, hid, hlayout⟩ := hfails.bad_of_run hrun
      obtain ⟨name, -, hget⟩ := List.mem_filterMap.1 ht
      have hname : s.get? id.typeName = some t := by
        rw [TypeStore.typeName_of_mem_layoutIds hid, TypeStore.name_of_get? hget, hget]
      exact TypeStore.tooLarge_of_layout hres hord.embeds_acyclic hname hlayout
  · intro c hc
    split at hc
    · next hrun =>
      cases hc
      have hids : c.entries.map (·.1) = (order.filterMap s.get?).flatMap RecordType.layoutIds :=
        hadds.ok_of_run hrun
      refine ⟨hids, ?_, names_filterMap fun name hname => ?_⟩
      · rw [hids]
        exact hturn.nodup List.nodup_nil
      · obtain ⟨t, ht, rfl⟩ := List.mem_map.1 (hord.perm.subset hname)
        exact ⟨t, TypeStore.get?_of_mem ht⟩
    · cases hc

/-- The sample store has its layouts in this order. -/
theorem ofOrder_sorted_sample : ∃ order c, sampleStore.dependencyOrder = .ok order
    ∧ ofOrder sampleStore order = .ok c
    ∧ c.entries.map (·.1) = (order.filterMap sampleStore.get?).flatMap RecordType.layoutIds := by
  have horder : sampleStore.dependencyOrder =
      .ok ["Point", "Wide", "Node", "Pay", "Wallet"] := by decide +kernel
  have hok : (ofOrder sampleStore ["Point", "Wide", "Node", "Pay", "Wallet"]).isOk = true := by
    decide +kernel
  obtain ⟨c, hc⟩ := exists_of_isOk hok
  exact ⟨_, c, horder, hc, ((ofOrder_sorted horder).2 c hc).1⟩

end LayoutCache
end CellPack
