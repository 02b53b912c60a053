import Mathlib
import CellPack.Proofs.Placing
import CellPack.Proofs.Steps
/-!
# Requests of layouts

Every request keeps the cache valid: what it holds has been computed from the store and from other
layouts that it holds, and requests in progress are not in it yet (`LayoutCache.keeps_ensure`).
-/

namespace CellPack

/-! ## The cache -/

namespace LayoutCache

theorem get?_put_self (c : LayoutCache) (id : LayoutId) (l : Layout) :
    get? { c with entries := Table.put c.entries id l } id = some l := by
  rw [get?, Table.get?_put, if_pos rfl]

theorem get?_put_of_ne (c : LayoutCache) {id id' : LayoutId} (h : id ≠ id') (l : Layout) :
    get? { c with entries := Table.put c.entries id l } id' = c.get? id' := by
  rw [get?, Table.get?_put, if_neg h]
  rfl

/-- The full layout of a record type is in the cache. -/
def Holds (c : LayoutCache) (name : String) (l : Layout) : Prop := c.get? (.full name) = some l

/-- The layout of a list of fields, out of layouts that the cache holds. -/
def Filled (c : LayoutCache) (id : LayoutId) (t : RecordType) (header : Option UInt32)
    (fields : List Field) (l : Layout) : Prop :=
  ∃ cells, Places c.Holds (.reserving (reservedBits id t.kind)) fields cells
    ∧ l = ⟨id, reservedBits id t.kind, header, cells, fields.map (·.name), []⟩

/-- The layout under an id is the one of the store, out of layouts that the cache holds. -/
def Computed (s : TypeStore) (c : LayoutCache) (id : LayoutId) (l : Layout) : Prop :=
  ∃ t, s.get? id.typeName = some t ∧
    match id with
    | .full _ => c.Filled id t (if t.isMessage then t.headerValue else none) t.fields l
    | .init _ => c.Filled id t none (t.init.getD []) l
    | .bounced name => ∃ full, c.Holds name full ∧ l = full.bounced id t.fields

/-- All layouts are those of the store, and no request in progress is answered yet. -/
structure Valid (s : TypeStore) (c : LayoutCache) : Prop where
  computed : ∀ id l, c.get? id = some l → Computed s c id l
  pending : ∀ id ∈ c.inProgress, c.get? id = none

/-- A later cache holds all layouts of an earlier one, with the same requests in progress. -/
structure Grows (c c' : LayoutCache) : Prop where
  inProgress : c'.inProgress = c.inProgress
  get? : ∀ id l, c.get? id = some l → c'.get? id = some l

theorem Grows.refl (c : LayoutCache) : Grows c c := ⟨rfl, fun _ _ h => h⟩

theorem Grows.trans {a b c : LayoutCache} (h : Grows a b) (h' : Grows b c) : Grows a c :=
  ⟨h'.inProgress.trans h.inProgress, fun id l hl => h'.get? id l (h.get? id l hl)⟩

theorem Filled.mono {c c' : LayoutCache} {id : LayoutId} {t : RecordType}
    {header : Option UInt32} {fields : List Field} {l : Layout}
    (hc : ∀ id l, c.get? id = some l → c'.get? id = some l) (h : c.Filled id t header fields l) :
    c'.Filled id t header fields l := by
  obtain ⟨cells, hcells, rfl⟩ := h
  exact ⟨cells, hcells.mono fun name l => hc (.full name) l, rfl⟩

theorem Computed.mono {s : TypeStore} {c c' : LayoutCache} {id : LayoutId} {l : Layout}
    (hc : ∀ id l, c.get? id = some l → c'.get? id = some l) (h : Computed s c id l) :
    Computed s c' id l := by
  obtain ⟨t, ht, h⟩ := h
  refine ⟨t, ht, ?_⟩
  cases id with
  | full name => exact Filled.mono hc h
  | init name => exact Filled.mono hc h
  | bounced name =>
    obtain ⟨full, hfull, hl⟩ := h
    exact ⟨full, hc _ _ hfull, hl⟩

theorem valid_empty (s : TypeStore) : Valid s {} := by
  refine ⟨fun id l h => ?_, fun id h => ?_⟩
  · cases h
  · cases h

/-! ## Requests -/

variable {s : TypeStore} {c : LayoutCache} {α β : Type}

/-- A computation from a valid cache only adds layouts and keeps the cache valid. -/
def Keeps (s : TypeStore) (x : LayoutM α) (c : LayoutCache) (post : α → LayoutCache → Prop) : Prop :=
  Step.Ends x c (fun a c' => Grows c c' ∧ Valid s c' ∧ post a c') fun _ c' => Grows c c' ∧ Valid s c'

theorem Keeps.bind {x : LayoutM α} {f : α → LayoutM β} {post : α → LayoutCache → Prop}
    {post' : β → LayoutCache → Prop} (h : Keeps s x c post)
    (hf : ∀ a c', Grows c c' → Valid s c' → post a c' → Keeps s (f a) c' post') :
    Keeps s (x >>= f) c post' := by
  refine (h.mono (fun a c' h => h) fun _ _ h => h).bind fun a c' ⟨hgrow, hvalid, ha⟩ => ?_
  refine (hf a c' hgrow hvalid ha).mono (fun b c'' ⟨hgrow', h⟩ => ⟨hgrow.trans hgrow', h⟩) ?_
  exact fun _ c'' ⟨hgrow', h⟩ => ⟨hgrow.trans hgrow', h⟩

theorem keeps_pure {a : α} {post : α → LayoutCache → Prop} (hc : Valid s c) (ha : post a c) :
    Keeps s (pure a) c post :=
  Step.ends_pure ⟨.refl c, hc, ha⟩

theorem keeps_throw {e : CompileError} {post : α → LayoutCache → Prop} (hc : Valid s c) :
    Keeps s (throw e) c post :=
  Step.ends_throw ⟨.refl c, hc⟩

theorem keeps_lift {x : Except CompileError α} {post : α → LayoutCache → Prop} (hc : Valid s c)
    (hx : ∀ a, x = .ok a → post a c) : Keeps s (liftM x : LayoutM α) c post := by
  cases x with
  | error e => exact Step.Ends.of_error (e := e) rfl ⟨.refl c, hc⟩
  | ok a => exact Step.Ends.of_ok (a := a) rfl ⟨.refl c, hc, hx a rfl⟩

theorem keeps_checkPayload (typeName field : String) (size : CellSize) (hc : Valid s c) :
    Keeps s (liftM (checkPayload typeName field size) : LayoutM Unit) c
      fun _ _ => size.fitsCell = true :=
  keeps_lift hc fun _ h => checkPayload_eq_ok.1 h

/-- Whatever becomes of it, a computation leaves a valid cache. -/
theorem Keeps.valid {x : LayoutM α} {post : α → LayoutCache → Prop} (h : Keeps s x c post) :
    Valid s (x.run c).2 := by
  rcases hrun : x.run c with ⟨e | a, c'⟩
  · exact (h.bad_of_run hrun).2
  · exact (h.ok_of_run hrun).2.1

theorem Keeps.grows {x : LayoutM α} {post : α → LayoutCache → Prop} (h : Keeps s x c post) :
    Grows c (x.run c).2 := by
  rcases hrun : x.run c with ⟨e | a, c'⟩
  · exact (h.bad_of_run hrun).1
  · exact (h.ok_of_run hrun).1

section
variable {request : String → LayoutM Layout}
  (hreq : ∀ name c, Valid s c → Keeps s (request name) c fun l c' => c'.Holds name l)

include hreq

theorem keeps_fieldCost (current : LayoutCell) (type : FieldType) (hc : Valid s c) :
    Keeps s (fieldCost request current type) c fun cost c' =>
      cost.2.2.fitsCell = true → Costs c'.Holds current type cost.1 cost.2.1 := by
  unfold fieldCost
  cases h : type.lower with
  | fixed op size payload => exact keeps_pure hc fun hfits => .fixed h hfits
  | nested name =>
    refine (hreq name c hc).bind fun l c' _ hc' hl => ?_
    exact keeps_pure hc' fun _ => .nested h hl

/-- The placing of fields ends in cells that they fill. -/
theorem keeps_placeFields (typeName : String) (fields : List Field) :
    ∀ (current : LayoutCell) (c : LayoutCache), Valid s c →
      Keeps s (placeFields s request typeName current fields) c fun cells c' =>
        Places c'.Holds current fields cells := by
  induction fields with
  | nil => exact fun current c hc => keeps_pure hc (.done current)
  | cons f rest ih =>
    intro current c hc
    unfold placeFields
    have hresolved : Keeps s (liftM (checkResolved s typeName f) : LayoutM Unit) c
        fun _ _ => True := keeps_lift hc fun _ _ => trivial
    refine hresolved.bind fun _ c _ hc _ => ?_
    refine (keeps_fieldCost hreq current f.type hc).bind fun cost c _ hc hcost => ?_
    obtain ⟨op, size, payload⟩ := cost
    refine (keeps_checkPayload typeName f.name payload hc).bind fun _ c' hgrow hc' hpayload => ?_
    have hcost' : Costs c'.Holds current f.type op size :=
      (hcost hpayload).mono fun name l => hgrow.get? _ l
    by_cases hfit : current.canFit size = true
    · rw [if_pos hfit]
      refine (ih _ c' hc').mono (fun cells c'' ⟨hg, hv, hp⟩ => ⟨hg, hv, ?_⟩) fun _ _ h => h
      exact .here (hcost'.mono fun name l => hg.get? _ l) hfit hp
    · rw [if_neg hfit]
      refine (keeps_checkPayload typeName f.name size hc').bind fun _ c'' hg hc'' hsize => ?_
      refine (ih _ c'' hc'').bind fun cells c''' hg' hc''' hp => keeps_pure hc''' ?_
      have hcost'' := hcost'.mono fun name l h => (hg.trans hg').get? _ l h
      exact .fresh hcost'' (by simpa using hfit) hsize hp

theorem keeps_layoutFields (id : LayoutId) (t : RecordType) (header : Option UInt32)
    (fields : List Field) (hc : Valid s c) :
    Keeps s (layoutFields s request id t header fields) c fun l c' =>
      c'.Filled id t header fields l := by
  refine (keeps_placeFields hreq id.typeName fields _ c hc).bind fun cells c' _ hc' hp => ?_
  exact keeps_pure hc' ⟨cells, hp, rfl⟩

theorem keeps_computeLayout (id : LayoutId) (hc : Valid s c) :
    Keeps s (computeLayout s request id) c fun l c' => Computed s c' id l := by
  unfold computeLayout
  cases ht : s.get? id.typeName with
  | none => exact keeps_throw hc
  | some t =>
    cases id with
    | full name =>
      refine (keeps_layoutFields hreq _ t _ _ hc).mono (fun l c' ⟨hg, hv, h⟩ => ?_) fun _ _ h => h
      exact ⟨hg, hv, t, ht, h⟩
    | init name =>
      refine (keeps_layoutFields hreq _ t _ _ hc).mono (fun l c' ⟨hg, hv, h⟩ => ?_) fun _ _ h => h
      exact ⟨hg, hv, t, ht, h⟩
    | bounced name =>
      refine (hreq name c hc).bind fun full c' _ hc' hfull => keeps_pure hc' ?_
      exact ⟨t, ht, full, hfull, rfl⟩

end

/-! ## Start and end of a request -/

/-- The cache with one more request in progress. -/
def started (c : LayoutCache) (id : LayoutId) : LayoutCache :=
  { c with inProgress := c.inProgress ++ [id] }

theorem inProgress_started (c : LayoutCache) (id : LayoutId) :
    (c.started id).inProgress = c.inProgress ++ [id] := rfl

/-- The cache at the end of the latest request, with its answer if it has one. -/
def ended (c : LayoutCache) (id : LayoutId) (r : Except CompileError Layout) : LayoutCache where
  entries :=
    match r with
    | .error _ => c.entries
    | .ok l => Table.put c.entries id l
  inProgress := c.inProgress.dropLast

/-- A layout in the cache is the answer to its request. -/
theorem run_ensure_cached (depth : Nat) {id : LayoutId} {l : Layout} (h : c.get? id = some l) :
    (ensure s depth id).run c = (.ok l, c) := by
  unfold ensure
  rw [Step.run_bind_ok (show (get : LayoutM LayoutCache).run c = (.ok c, c) from rfl)]
  simp only [h]
  rfl

/-- A request that is in progress already. -/
theorem run_ensure_pending (depth : Nat) {id : LayoutId} (h : c.get? id = none)
    (hid : id ∈ c.inProgress) :
    (ensure s depth id).run c =
      (.error (.cyclicDependency ((c.inProgress.dropWhile (· ≠ id)).map (·.typeName))), c) := by
  unfold ensure
  rw [Step.run_bind_ok (show (get : LayoutM LayoutCache).run c = (.ok c, c) from rfl)]
  simp only [h, if_pos hid]
  rfl

/-- A request that may not be nested any deeper. -/
theorem run_ensure_zero {id : LayoutId} (h : c.get? id = none) (hid : id ∉ c.inProgress) :
    (ensure s 0 id).run c =
      (.error (.cyclicDependency (c.inProgress.map (·.typeName))), c) := by
  unfold ensure
  rw [Step.run_bind_ok (show (get : LayoutM LayoutCache).run c = (.ok c, c) from rfl)]
  simp only [h, if_neg hid]
  rfl

/-- A request for a layout that is still to be computed. -/
theorem run_ensure_new {depth : Nat} {id : LayoutId} (h : c.get? id = none)
    (hid : id ∉ c.inProgress) {r : Except CompileError Layout} {c' : LayoutCache}
    (hrun : (computeLayout s (fun name => ensure s depth (.full name)) id).run (c.started id) =
      (r, c')) :
    (ensure s (depth + 1) id).run c = (r, c'.ended id r) := by
  have hlift : (ExceptT.lift (computeLayout s (fun name => ensure s depth (.full name)) id).run :
      LayoutM (Except CompileError Layout)).run (c.started id) = (.ok r, c') := by
    change ((Except.ok ((computeLayout s _ id).run _).1, ((computeLayout s _ id).run _).2) :
      Except CompileError _ × LayoutCache) = _
    rw [hrun]
  unfold ensure
  rw [Step.run_bind_ok (show (get : LayoutM LayoutCache).run c = (.ok c, c) from rfl)]
  simp only [h, if_neg hid]
  rw [Step.run_bind_ok (show (start id).run c = (.ok (), c.started id) from rfl),
    Step.run_bind_ok hlift]
  cases r <;> rfl

/-- A started request is one more in progress that is not answered. -/
theorem Valid.start {id : LayoutId} (hc : Valid s c) (hid : c.get? id = none) :
    Valid s (c.started id) := by
  refine ⟨fun id l h => (hc.computed id l h).mono fun _ _ h => h, fun id' h => ?_⟩
  rcases List.mem_append.1 h with h | h
  · exact hc.pending id' h
  · rw [List.mem_singleton.1 h]
    exact hid

/-- The request itself is still in progress while it is computed. -/
theorem Valid.unanswered {c' : LayoutCache} {id : LayoutId} (hc' : Valid s c')
    (hg : c'.inProgress = (c.started id).inProgress) : c'.get? id = none :=
  hc'.pending id (by rw [hg, inProgress_started]; simp)

/-- The end of a request, answered or not. -/
theorem grows_finish {c' : LayoutCache} {id : LayoutId} (hg : Grows (c.started id) c') :
    Grows c { c' with inProgress := c'.inProgress.dropLast } := by
  refine ⟨?_, fun id l h => hg.get? id l h⟩
  change c'.inProgress.dropLast = c.inProgress
  rw [hg.inProgress, inProgress_started, List.dropLast_concat]

theorem Valid.finish {c' : LayoutCache} (hc' : Valid s c') :
    Valid s { c' with inProgress := c'.inProgress.dropLast } :=
  ⟨fun id l h => (hc'.computed id l h).mono fun _ _ h => h,
    fun id h => hc'.pending id (List.mem_of_mem_dropLast h)⟩

/-- An answer to a request that had none. -/
theorem Valid.keep {id : LayoutId} {l : Layout} (hc : Valid s c) (hid : c.get? id = none)
    (hid' : id ∉ c.inProgress) (hl : Computed s c id l) :
    Valid s { c with entries := Table.put c.entries id l }
      ∧ Grows c { c with entries := Table.put c.entries id l } := by
  have hgrow : Grows c { c with entries := Table.put c.entries id l } := by
    refine ⟨rfl, fun id' l' h => ?_⟩
    by_cases he : id = id'
    · rw [← he, hid] at h
      cases h
    · rwa [get?_put_of_ne c he]
  refine ⟨⟨fun id' l' h => ?_, fun id' h => ?_⟩, hgrow⟩
  · by_cases he : id = id'
    · subst he
      rw [get?_put_self] at h
      cases h
      exact hl.mono hgrow.get?
    · rw [get?_put_of_ne c he] at h
      exact (hc.computed id' l' h).mono hgrow.get?
  · have hne : id ≠ id' := fun he => hid' (he ▸ h)
    rw [get?_put_of_ne c hne]
    exact hc.pending id' h

/-- A request that is computed, given what its computation keeps. -/
theorem keeps_ensure_new {depth : Nat} {id : LayoutId} (hnew : c.get? id = none)
    (hid : id ∉ c.inProgress)
    (hx : Keeps s (computeLayout s (fun name => ensure s depth (.full name)) id) (c.started id)
      fun l c' => Computed s c' id l) :
    Keeps s (ensure s (depth + 1) id) c fun l c' => c'.get? id = some l := by
  rcases hrun : (computeLayout s (fun name => ensure s depth (.full name)) id).run (c.started id)
    with ⟨e | l, c'⟩
  · obtain ⟨hgrow, hvalid⟩ := hx.bad_of_run hrun
    exact .of_error (run_ensure_new hnew hid hrun) ⟨grows_finish hgrow, hvalid.finish⟩
  · obtain ⟨hgrow, hvalid, hl⟩ := hx.ok_of_run hrun
    have hfin := grows_finish hgrow
    have hdone : id ∉ c'.inProgress.dropLast := by
      rwa [show c'.inProgress.dropLast = c.inProgress from hfin.inProgress]
    -- nested requests have not answered this one, since it is in progress
    obtain ⟨hvalid', hgrow'⟩ := hvalid.finish.keep (hvalid.unanswered hgrow.inProgress) hdone
      (hl.mono fun _ _ h => h)
    exact .of_ok (run_ensure_new hnew hid hrun)
      ⟨hfin.trans hgrow', hvalid', get?_put_self _ id l⟩

/-- A request keeps the cache valid, and its answer is in the cache from then on. -/
theorem keeps_ensure (s : TypeStore) (depth : Nat) :
    ∀ id c, Valid s c → Keeps s (ensure s depth id) c fun l c' => c'.get? id = some l := by
  induction depth with
  | zero =>
    intro id c hc
    cases hget : c.get? id with
    | some l => exact .of_ok (run_ensure_cached 0 hget) ⟨.refl c, hc, hget⟩
    | none =>
      by_cases hmem : id ∈ c.inProgress
      · exact .of_error (run_ensure_pending 0 hget hmem) ⟨.refl c, hc⟩
      · exact .of_error (run_ensure_zero hget hmem) ⟨.refl c, hc⟩
  | succ depth ih =>
    intro id c hc
    cases hget : c.get? id with
    | some l => exact .of_ok (run_ensure_cached _ hget) ⟨.refl c, hc, hget⟩
    | none =>
      by_cases hmem : id ∈ c.inProgress
      · exact .of_error (run_ensure_pending _ hget hmem) ⟨.refl c, hc⟩
      -- requests in the computation are one level deeper
      · refine keeps_ensure_new hget hmem ?_
        exact keeps_computeLayout (fun name c hc => ih (.full name) c hc) id (hc.start hget)

theorem keeps_request (s : TypeStore) (id : LayoutId) (hc : Valid s c) :
    Keeps s (request s id) c fun l c' => c'.get? id = some l :=
  keeps_ensure s _ id c hc

theorem run_request {id : LayoutId} {l : Layout} (h : c.get? id = some l) :
    (request s id).run c = (.ok l, c) :=
  run_ensure_cached _ h

/-- The cache after some requests, whatever became of them. -/
def after (s : TypeStore) (ids : List LayoutId) : LayoutCache :=
  ids.foldl (fun c id => ((request s id).run c).2) {}

theorem valid_after (s : TypeStore) (ids : List LayoutId) : Valid s (after s ids) := by
  have h : ∀ c, Valid s c → Valid s (ids.foldl (fun c id => ((request s id).run c).2) c) := by
    induction ids with
    | nil => exact fun c hc => hc
    | cons id ids ih => exact fun c hc => ih _ (keeps_request s id hc).valid
  exact h {} (valid_empty s)

end LayoutCache

end CellPack
