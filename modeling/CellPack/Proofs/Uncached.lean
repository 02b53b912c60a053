import Mathlib
import CellPack.Proofs.Dependencies
import CellPack.Proofs.Placing
import CellPack.Proofs.Steps
/-!
# Layouts without a cache

`TypeStore.layout` is the layout under an id with nothing kept between requests. It is what one
record type after the other is computed to below the types that contain it (`layoutBelow`). A type
whose layout is found contains itself nowhere, so the layout is the same below all types that it
does not contain (`layoutBelow_of_ok`), and a type without a layout because of a circle leads to one
(`circle_of_layout`).
-/

namespace CellPack

open Relation Step

/-! ## What a layout needs -/

/-- The fields that a layout is about. -/
def LayoutId.fieldsOf (t : RecordType) : LayoutId → List Field
  | full _ | bounced _ => t.fields
  | init _ => t.init.getD []

/-- One of the fields is a record of this type, in place. -/
def RecordIn (fields : List Field) (name : String) : Prop := ∃ f ∈ fields, f.type = .record name

/-- What of a record type its layouts depend on. -/
def RecordType.layoutPart (t : RecordType) :
    RecordKind × List Field × Option (List Field) × Option UInt32 :=
  (t.kind, t.fields, t.init, t.headerValue)

namespace TypeStore

/-- A field of the first record type is a record of the second one, in place. -/
def Embeds (s : TypeStore) (a b : String) : Prop :=
  ∃ t, s.get? a = some t ∧ RecordIn t.fields b

/-- The layout under the id is computed from the full layout of the record type. -/
def Needs (s : TypeStore) : LayoutId → String → Prop
  | .full a, b => s.Embeds a b
  | .init a, b => ∃ t, s.get? a = some t ∧ RecordIn (t.init.getD []) b
  | .bounced a, b => b = a

/-- Two stores have the same under an id, and the same of the records in its fields is declared. -/
structure SameInputs (s s' : TypeStore) (id : LayoutId) : Prop where
  type : (s.get? id.typeName).map RecordType.layoutPart =
    (s'.get? id.typeName).map RecordType.layoutPart
  declared : ∀ t, s.get? id.typeName = some t → ∀ f ∈ id.fieldsOf t, ∀ name,
    f.type.withoutOptional = .record name → s.contains name = s'.contains name

theorem SameInputs.refl (s : TypeStore) (id : LayoutId) : SameInputs s s id :=
  ⟨rfl, fun _ _ _ _ _ _ => rfl⟩

end TypeStore

/-! ## Two computations -/

namespace LayoutCache

/-- From related caches, two computations have the same result and leave related caches. -/
def Alike {α : Type} (R : LayoutCache → LayoutCache → Prop) (x y : LayoutM α) : Prop :=
  ∀ c c', R c c' → (x.run c).1 = (y.run c').1 ∧ R (x.run c).2 (y.run c').2

variable {α β : Type} {R : LayoutCache → LayoutCache → Prop}

theorem alike_pure (a : α) : Alike R (pure a) (pure a) := fun _ _ h => ⟨rfl, h⟩

theorem alike_throw (e : CompileError) : Alike R (throw e : LayoutM α) (throw e) :=
  fun _ _ h => ⟨rfl, h⟩

theorem alike_lift (x : Except CompileError α) :
    Alike R (liftM x : LayoutM α) (liftM x : LayoutM α) := by
  cases x with
  | error e => exact alike_throw e
  | ok a => exact alike_pure a

theorem Alike.bind {x y : LayoutM α} {f g : α → LayoutM β} (h : Alike R x y)
    (hf : ∀ a, Alike R (f a) (g a)) : Alike R (x >>= f) (y >>= g) := by
  intro c c' hc
  obtain ⟨hresult, hcaches⟩ := h c c' hc
  rw [run_bind, run_bind, ← hresult]
  cases (x.run c).1 with
  | error e => exact ⟨rfl, hcaches⟩
  | ok a => exact hf a _ _ hcaches

section
variable {s s' : TypeStore} {request request' : String → LayoutM Layout}

theorem checkResolved_congr {typeName : String} {f : Field}
    (h : ∀ name, f.type.withoutOptional = .record name → s.contains name = s'.contains name) :
    checkResolved s typeName f = checkResolved s' typeName f := by
  unfold checkResolved
  split
  · next name htype => rw [h name htype]
  · rfl

theorem alike_fieldCost (current : LayoutCell) (type : FieldType)
    (h : ∀ name, type = .record name → Alike R (request name) (request' name)) :
    Alike R (fieldCost request current type) (fieldCost request' current type) := by
  unfold fieldCost
  cases hlower : type.lower with
  | fixed op size payload => exact alike_pure _
  | nested name => exact (h name (FieldType.eq_record_of_lower hlower)).bind fun l => alike_pure _

/-- Fields are placed alike if the records in place are laid out alike. -/
theorem alike_placeFields (typeName : String) (fields : List Field)
    (hdeclared : ∀ f ∈ fields, ∀ name, f.type.withoutOptional = .record name →
      s.contains name = s'.contains name)
    (hreq : ∀ f ∈ fields, ∀ name, f.type = .record name → Alike R (request name) (request' name)) :
    ∀ current, Alike R (placeFields s request typeName current fields)
      (placeFields s' request' typeName current fields) := by
  induction fields with
  | nil => exact fun current => alike_pure _
  | cons f rest ih =>
    intro current
    obtain ⟨hf, hrest⟩ := List.forall_mem_cons.1 hdeclared
    obtain ⟨hfreq, hrestreq⟩ := List.forall_mem_cons.1 hreq
    unfold placeFields
    rw [checkResolved_congr hf]
    refine (alike_lift _).bind fun _ => (alike_fieldCost current f.type hfreq).bind fun cost => ?_
    obtain ⟨op, size, payload⟩ := cost
    refine (alike_lift _).bind fun _ => ?_
    by_cases hfit : current.canFit size = true
    · simp only [if_pos hfit]
      exact ih hrest hrestreq _
    · simp only [if_neg hfit]
      exact (alike_lift _).bind fun _ => (ih hrest hrestreq _).bind fun cells => alike_pure _

/-- So is everything under an id that both stores have the same of. -/
theorem alike_computeLayout {id : LayoutId} (h : s.SameInputs s' id)
    (hreq : ∀ name, s.Needs id name → Alike R (request name) (request' name)) :
    Alike R (computeLayout s request id) (computeLayout s' request' id) := by
  have htype := h.type
  unfold computeLayout
  cases ht : s.get? id.typeName with
  | none =>
    rw [ht, Option.map_none, eq_comm, Option.map_eq_none_iff] at htype
    rw [htype]
    exact alike_throw _
  | some t =>
    rw [ht, Option.map_some, eq_comm, Option.map_eq_some_iff] at htype
    obtain ⟨t', ht', hpart⟩ := htype
    obtain ⟨hkind, hfields, hinit, hheader⟩ : t'.kind = t.kind ∧ t'.fields = t.fields
        ∧ t'.init = t.init ∧ t'.headerValue = t.headerValue := by
      simpa [RecordType.layoutPart] using hpart
    have hdeclared := h.declared t ht
    rw [ht']
    cases id with
    | full name =>
      simp only [RecordType.isMessage, hkind, hfields, hheader, layoutFields]
      refine (alike_placeFields _ _ hdeclared (fun f hf other htype => ?_) _).bind fun cells =>
        alike_pure _
      exact hreq other ⟨t, ht, f, hf, htype⟩
    | init name =>
      simp only [hkind, hinit, layoutFields]
      refine (alike_placeFields _ _ hdeclared (fun f hf other htype => ?_) _).bind fun cells =>
        alike_pure _
      exact hreq other ⟨t, ht, f, hf, htype⟩
    | bounced name =>
      simp only [hfields]
      exact (hreq name rfl).bind fun full => alike_pure _

end

end LayoutCache

/-! ## Layouts computed from others -/

/-- The error says that records contain each other in a circle. -/
def CompileError.isCycle : CompileError → Bool
  | cyclicDependency _ => true
  | _ => false

namespace TypeStore

/-- The layout under an id, where `nested` gives the full layouts of record types. -/
def layoutWith (s : TypeStore) (nested : String → Except CompileError Layout) (id : LayoutId) :
    Except CompileError Layout :=
  ((computeLayout s (fun name => liftM (nested name)) id).run {}).1

variable {s s' : TypeStore} {nested nested' : String → Except CompileError Layout} {id : LayoutId}

theorem layoutWith_congr (h : s.SameInputs s' id)
    (hnested : ∀ name, s.Needs id name → nested name = nested' name) :
    s.layoutWith nested id = s'.layoutWith nested' id := by
  have halike : LayoutCache.Alike (fun _ _ => True) (computeLayout s (fun n => liftM (nested n)) id)
      (computeLayout s' (fun n => liftM (nested' n)) id) := by
    refine LayoutCache.alike_computeLayout h fun name hname => ?_
    rw [hnested name hname]
    exact LayoutCache.alike_lift _
  exact (halike {} {} trivial).1

theorem layoutWith_undeclared (h : s.get? id.typeName = none) :
    s.layoutWith nested id = .error (.unknownEntryType id.typeName) := by
  unfold layoutWith computeLayout
  rw [h]
  rfl

/-- All needed layouts are found. -/
def Found (nested : String → Except CompileError Layout) (needed : String → Prop) : Prop :=
  ∀ name, needed name → ∃ l, nested name = .ok l

/-- The error is that of a needed layout, or it is not about a circle. -/
def Blames (nested : String → Except CompileError Layout) (needed : String → Prop)
    (e : CompileError) : Prop :=
  (∃ name, needed name ∧ nested name = .error e) ∨ e.isCycle = false

theorem Blames.mono {needed needed' : String → Prop} {e : CompileError}
    (hn : ∀ name, needed name → needed' name) (h : Blames nested needed e) :
    Blames nested needed' e :=
  h.imp_left fun ⟨name, hname, he⟩ => ⟨name, hn name hname, he⟩

section
variable {needed : String → Prop} {c : LayoutCache}

theorem ends_nested {name : String} (hname : needed name) :
    Ends (liftM (nested name) : LayoutM Layout) c (fun _ _ => ∃ l, nested name = .ok l)
      fun e _ => Blames nested needed e := by
  cases h : nested name with
  | error e => exact ends_throw (.inl ⟨name, hname, h⟩)
  | ok l => exact ends_pure ⟨l, rfl⟩

/-- A check that never reports a circle. -/
theorem ends_check {x : Except CompileError Unit} (hx : ∀ e, x = .error e → e.isCycle = false) :
    Ends (liftM x : LayoutM Unit) c (fun _ _ => True) fun e _ => Blames nested needed e := by
  cases x with
  | error e => exact ends_throw (.inr (hx e rfl))
  | ok a => exact ends_pure trivial

theorem ends_checkPayload (typeName field : String) (size : CellSize) :
    Ends (liftM (checkPayload typeName field size) : LayoutM Unit) c (fun _ _ => True)
      fun e _ => Blames nested needed e := by
  refine ends_check fun e he => ?_
  unfold checkPayload at he
  split at he
  · cases he
    rfl
  · split at he
    · cases he
      rfl
    · cases he

theorem ends_checkResolved (typeName : String) (f : Field) :
    Ends (liftM (checkResolved s typeName f) : LayoutM Unit) c (fun _ _ => True)
      fun e _ => Blames nested needed e := by
  refine ends_check fun e he => ?_
  unfold checkResolved at he
  split at he
  · split at he
    · cases he
    · cases he
      rfl
  · cases he

theorem ends_fieldCost (current : LayoutCell) (f : Field) :
    Ends (fieldCost (fun name => liftM (nested name)) current f.type) c
      (fun _ _ => ∀ name, f.type = .record name → ∃ l, nested name = .ok l)
      fun e _ => Blames nested (fun name => f.type = .record name) e := by
  unfold fieldCost
  cases hlower : f.type.lower with
  | fixed op size payload =>
    refine ends_pure fun name htype => ?_
    rw [htype] at hlower
    cases hlower
  | nested name =>
    have htype := FieldType.eq_record_of_lower hlower
    refine (ends_nested htype).bind fun l c hl => ends_pure fun other hother => ?_
    obtain rfl : name = other := by simpa [htype] using hother
    exact hl

end

/-- Placed fields have had the layouts of all records in place. -/
theorem ends_placeFields (typeName : String) (fields : List Field) :
    ∀ (current : LayoutCell) (c : LayoutCache),
      Ends (placeFields s (fun name => liftM (nested name)) typeName current fields) c
        (fun _ _ => Found nested (RecordIn fields)) fun e _ => Blames nested (RecordIn fields) e := by
  induction fields with
  | nil => exact fun current c => ends_pure fun name ⟨f, hf, _⟩ => absurd hf List.not_mem_nil
  | cons f rest ih =>
    intro current c
    unfold placeFields
    refine (ends_checkResolved typeName f).bind fun _ c _ => ?_
    refine Ends.bind ((ends_fieldCost current f).mono (fun _ _ h => h) fun e _ he => ?_)
      fun cost c hf => ?_
    · exact he.mono fun name htype => ⟨f, List.mem_cons_self, htype⟩
    obtain ⟨op, size, payload⟩ := cost
    have hrest (current : LayoutCell) (c : LayoutCache) :
        Ends (placeFields s (fun name => liftM (nested name)) typeName current rest) c
          (fun _ _ => Found nested (RecordIn (f :: rest)))
          fun e _ => Blames nested (RecordIn (f :: rest)) e := by
      refine (ih current c).mono (fun _ _ h name hname => ?_) fun e _ he => he.mono ?_
      · obtain ⟨g, hg, htype⟩ := hname
        rcases List.mem_cons.1 hg with rfl | hg
        · exact hf name htype
        · exact h name ⟨g, hg, htype⟩
      · rintro name ⟨g, hg, htype⟩
        exact ⟨g, List.mem_cons_of_mem f hg, htype⟩
    refine (ends_checkPayload typeName f.name payload).bind fun _ c _ => ?_
    by_cases hfit : current.canFit size = true
    · rw [if_pos hfit]
      exact hrest _ c
    · rw [if_neg hfit]
      refine (ends_checkPayload typeName f.name size).bind fun _ c _ => ?_
      exact (hrest _ c).bind fun cells c h => ends_pure h

/-- A layout is found out of found ones; a circle is reported by one that is needed. -/
theorem ends_computeLayout (id : LayoutId) (c : LayoutCache) :
    Ends (computeLayout s (fun name => liftM (nested name)) id) c
      (fun _ _ => Found nested (s.Needs id)) fun e _ => Blames nested (s.Needs id) e := by
  unfold computeLayout
  cases ht : s.get? id.typeName with
  | none => exact ends_throw (.inr rfl)
  | some t =>
    -- the layout of a list of fields needs the records in it
    have hfields (fields : List Field) (hneeds : ∀ name, s.Needs id name ↔ RecordIn fields name)
        (current : LayoutCell) :
        Ends (placeFields s (fun name => liftM (nested name)) id.typeName current fields) c
          (fun _ _ => Found nested (s.Needs id)) fun e _ => Blames nested (s.Needs id) e := by
      refine (ends_placeFields _ fields current c).mono (fun _ _ h name hname => ?_) fun e _ he => ?_
      · exact h name ((hneeds name).1 hname)
      · exact he.mono fun name hname => (hneeds name).2 hname
    cases id with
    | full name =>
      refine (hfields t.fields (fun b => ?_) _).bind fun cells c h => ends_pure h
      simp only [LayoutId.typeName] at ht
      simp [Needs, Embeds, ht]
    | init name =>
      refine (hfields (t.init.getD []) (fun b => ?_) _).bind fun cells c h => ends_pure h
      simp only [LayoutId.typeName] at ht
      simp [Needs, ht]
    | bounced name =>
      have hneeded : s.Needs (.bounced name) name := rfl
      refine (ends_nested hneeded).bind fun full c h => ends_pure ?_
      rintro other rfl
      exact h

theorem exists_of_layoutWith_ok {l : Layout} (h : s.layoutWith nested id = .ok l) {name : String}
    (hname : s.Needs id name) : ∃ l', nested name = .ok l' :=
  (ends_computeLayout id {}).ok_of_result h name hname

theorem exists_of_layoutWith_cycle {cycle : List String}
    (h : s.layoutWith nested id = .error (.cyclicDependency cycle)) :
    ∃ name, s.Needs id name ∧ nested name = .error (.cyclicDependency cycle) :=
  ((ends_computeLayout id {}).bad_of_result h).resolve_right nofun

/-! ## Layouts below others -/

/-- The number of record types that are not on the path. -/
def unvisited (s : TypeStore) (path : List String) : Nat :=
  ((s.types.map (·.name)).filter (· ∉ path)).length

theorem unvisited_nil_le (s : TypeStore) : s.unvisited [] ≤ s.size := by
  refine (List.length_filter_le _ _).trans ?_
  rw [List.length_map, size]

theorem unvisited_concat_lt {path : List String} {name : String} (h : s.contains name = true)
    (hpath : name ∉ path) : s.unvisited (path ++ [name]) < s.unvisited path := by
  have hmem : name ∈ s.types.map (·.name) := by simpa [contains] using h
  have hfilter : (s.types.map (·.name)).filter (· ∉ path ++ [name]) =
      ((s.types.map (·.name)).filter (· ∉ path)).filter (· ≠ name) := by
    rw [List.filter_filter]
    refine List.filter_congr fun other _ => ?_
    simp [and_comm]
  rw [unvisited, unvisited, hfilter]
  refine List.length_filter_lt_length_iff_exists.2 ⟨name, ?_, by simp⟩
  simpa [hpath] using hmem

/--
The full layout of a record type, below a path of types that are laid out. A type on the path is
found to contain itself.
-/
def layoutBelow (s : TypeStore) (path : List String) (name : String) :
    Except CompileError Layout :=
  if _hpath : name ∈ path then .error (.cyclicDependency (path.dropWhile (· ≠ name)))
  else if _hname : s.contains name then
    s.layoutWith (fun other => layoutBelow s (path ++ [name]) other) (.full name)
  else .error (.unknownEntryType name)
termination_by s.unvisited path
decreasing_by exact unvisited_concat_lt _hname _hpath

/-- The layout under an id. -/
def layout (s : TypeStore) : LayoutId → Except CompileError Layout
  | .full name => s.layoutBelow [] name
  | .bounced name => s.layoutWith (s.layoutBelow []) (.bounced name)
  | .init name => s.layoutWith (s.layoutBelow []) (.init name)

theorem contains_of_get? {name : String} {t : RecordType} (h : s.get? name = some t) :
    s.contains name = true :=
  List.any_eq_true.2 ⟨t, mem_of_get? h, by simpa using name_of_get? h⟩

theorem get?_eq_none {name : String} (h : s.contains name = false) : s.get? name = none := by
  cases hget : s.get? name with
  | none => rfl
  | some t =>
    rw [contains_of_get? hget] at h
    cases h

variable {path : List String} {name : String}

theorem layoutBelow_of_mem (h : name ∈ path) :
    s.layoutBelow path name = .error (.cyclicDependency (path.dropWhile (· ≠ name))) := by
  rw [layoutBelow, dif_pos h]

/-- Off the path, a layout is computed from those one level deeper. -/
theorem layoutBelow_of_not_mem (h : name ∉ path) :
    s.layoutBelow path name = s.layoutWith (s.layoutBelow (path ++ [name])) (.full name) := by
  rw [layoutBelow, dif_neg h]
  split
  · rfl
  · next hname =>
    have hnone : s.get? (LayoutId.full name).typeName = none :=
      get?_eq_none (Bool.eq_false_iff.2 hname)
    rw [layoutWith_undeclared hnone]
    rfl

theorem not_mem_of_layoutBelow_ok {l : Layout} (h : s.layoutBelow path name = .ok l) :
    name ∉ path := by
  intro hmem
  rw [layoutBelow_of_mem hmem] at h
  cases h

/-- A layout that is found has found layouts of all records in place. -/
theorem layoutBelow_embedded {l : Layout} (h : s.layoutBelow path name = .ok l) {b : String}
    (hb : s.Embeds name b) : ∃ l', s.layoutBelow (path ++ [name]) b = .ok l' := by
  rw [layoutBelow_of_not_mem (not_mem_of_layoutBelow_ok h)] at h
  exact exists_of_layoutWith_ok h hb

/-- Nothing in a type whose layout is found is on the path. -/
theorem not_mem_of_reached {b : String} (hb : ReflTransGen s.Embeds name b) :
    ∀ {path : List String} {l : Layout}, s.layoutBelow path name = .ok l → b ∉ path := by
  induction hb using ReflTransGen.head_induction_on with
  | refl => exact not_mem_of_layoutBelow_ok
  | head hab _ ih =>
    intro path l h
    obtain ⟨l', hl'⟩ := layoutBelow_embedded h hab
    exact fun hmem => ih hl' (List.mem_append_left _ hmem)

/-- A type whose layout is found contains itself nowhere. -/
theorem not_reaches_self {l : Layout} (h : s.layoutBelow path name = .ok l) :
    ¬TransGen s.Embeds name name := by
  intro hself
  obtain ⟨b, hb, hreach⟩ := TransGen.head'_iff.1 hself
  obtain ⟨l', hl'⟩ := layoutBelow_embedded h hb
  exact not_mem_of_reached hreach hl' (by simp)

/-- A layout that is found is the same below all types that are not in it. -/
theorem layoutBelow_of_ok {l : Layout} (h : s.layoutBelow path name = .ok l) :
    ∀ {path' : List String}, (∀ b, ReflTransGen s.Embeds name b → b ∉ path') →
      s.layoutBelow path' name = .ok l := by
  induction path, name using layoutBelow.induct s generalizing l with
  | case1 path name hmem => exact absurd hmem (not_mem_of_layoutBelow_ok h)
  | case2 path name hpath hname ih =>
    intro path' hpath'
    have hself := not_reaches_self h
    have hdeeper {b : String} (hb : s.Embeds name b) := layoutBelow_embedded h hb
    rw [layoutBelow_of_not_mem hpath] at h
    rw [layoutBelow_of_not_mem (hpath' name .refl), ← h]
    refine layoutWith_congr (.refl s _) fun b hb => ?_
    obtain ⟨l', hl'⟩ := hdeeper hb
    rw [hl']
    refine ih b hl' fun x hx => ?_
    have hnot : x ≠ name := fun heq => hself (TransGen.head' hb (heq ▸ hx))
    simpa [hnot] using hpath' x (.head hb hx)
  | case3 path name hpath hname =>
    rw [layoutBelow, dif_neg hpath, dif_neg hname] at h
    cases h

/-! ## Circles -/

theorem chain_concat {b : String} (hchain : (path ++ [name]).IsChain s.Embeds)
    (hb : s.Embeds name b) : ((path ++ [name]) ++ [b]).IsChain s.Embeds := by
  rw [List.append_assoc]
  exact List.isChain_append_cons_cons.2 ⟨hchain, hb, List.isChain_singleton _⟩

/-- No record type contains itself in place, at any depth. -/
def Acyclic (s : TypeStore) : Prop := ∀ name, ¬TransGen s.Embeds name name

theorem Acyclic.not_mem (h : s.Acyclic) (hchain : (path ++ [name]).IsChain s.Embeds) :
    name ∉ path := by
  intro hmem
  obtain ⟨before, after, rfl⟩ := List.mem_iff_append.1 hmem
  rw [List.append_assoc] at hchain
  exact h name (transGen_of_chain after hchain.right_of_append)

theorem nodup_concat (hdistinct : path.Nodup) (h : name ∉ path) : (path ++ [name]).Nodup :=
  List.nodup_append.2 ⟨hdistinct, by simp, by grind⟩

theorem circle_of_layoutBelow {cycle : List String} (hchain : (path ++ [name]).IsChain s.Embeds)
    (hdistinct : path.Nodup) (h : s.layoutBelow path name = .error (.cyclicDependency cycle)) :
    Circle s.Embeds cycle := by
  induction path, name using layoutBelow.induct s with
  | case1 path name hmem =>
    rw [layoutBelow_of_mem hmem] at h
    cases h
    exact circle_of_mem hchain hdistinct hmem
  | case2 path name hpath hname ih =>
    rw [layoutBelow_of_not_mem hpath] at h
    obtain ⟨b, hb, hcycle⟩ := exists_of_layoutWith_cycle h
    exact ih b (chain_concat hchain hb) (nodup_concat hdistinct hpath) hcycle
  | case3 path name hpath hname =>
    rw [layoutBelow, dif_neg hpath, dif_neg hname] at h
    cases h

/-- A layout that is not found because of a circle leads to that circle. -/
theorem circle_of_layout {cycle : List String}
    (h : s.layout id = .error (.cyclicDependency cycle)) : Circle s.Embeds cycle := by
  have hfirst {name : String} (h : s.layoutBelow [] name = .error (.cyclicDependency cycle)) :=
    circle_of_layoutBelow (List.isChain_singleton name) List.nodup_nil h
  cases id with
  | full name => exact hfirst h
  | init name | bounced name =>
    obtain ⟨b, -, hb⟩ := exists_of_layoutWith_cycle h
    exact hfirst hb

end TypeStore
end CellPack
