import Mathlib
import CellPack.Proofs.Registry
import CellPack.Proofs.Requests
import CellPack.Proofs.Uncached
/-!
# Transparency of the cache

A request gives the layout of the store (`TypeStore.layout`), whatever was requested before and
whatever became of it (`LayoutCache.request_transparent`). What carries this through nested requests
is that the requests in progress are a path of types that contain each other: a layout in the cache
is one of a type that leads to none of them, so it would be found below them as well.
-/

namespace CellPack

open Relation

/-! ## Fresh keys -/

theorem Table.put_of_get?_none {κ ν : Type} [DecidableEq κ] {t : Table κ ν} {key : κ}
    (h : get? t key = none) (value : ν) : put t key value = t ++ [(key, value)] := by
  induction t with
  | nil => rfl
  | cons entry t ih =>
    obtain ⟨k, v⟩ := entry
    by_cases hk : k = key
    · rw [get?, if_pos hk] at h
      cases h
    · rw [get?, if_neg hk] at h
      rw [put, if_neg hk, ih h, List.cons_append]

namespace TypeStore

variable {s : TypeStore} {path : List String} {name : String}

/-- Below types that contain each other, a type with a layout leads to none of them. -/
theorem layoutBelow_of_layout {l : Layout} (hchain : (path ++ [name]).IsChain s.Embeds)
    (h : s.layout (.full name) = .ok l) : s.layoutBelow path name = .ok l := by
  refine layoutBelow_of_ok h fun b hb hmem => not_reaches_self h ?_
  obtain ⟨before, after, rfl⟩ := List.mem_iff_append.1 hmem
  rw [List.append_assoc] at hchain
  exact (transGen_of_chain after hchain.right_of_append).trans_right hb

end TypeStore

namespace LayoutCache

variable {s : TypeStore} {P : LayoutId → Prop} {c c' c'' : LayoutCache}

/-! ## Caches of layouts of the store -/

/-- All entries are layouts of the store, under ids as `P` says. -/
def Sound (s : TypeStore) (P : LayoutId → Prop) (c : LayoutCache) : Prop :=
  ∀ entry ∈ c.entries, P entry.1 ∧ s.layout entry.1 = .ok entry.2

theorem Sound.layout {id : LayoutId} {l : Layout} (h : Sound s P c) (hl : c.get? id = some l) :
    s.layout id = .ok l :=
  (h _ (Table.mem_of_get? hl)).2

theorem entries_prefix_ended {id : LayoutId} (hid : c.get? id = none)
    (r : Except CompileError Layout) : c.entries <+: (c.ended id r).entries := by
  cases r with
  | error e => exact List.prefix_refl _
  | ok l =>
    change c.entries <+: Table.put c.entries id l
    rw [Table.put_of_get?_none hid]
    exact List.prefix_append _ _

/-- A request that ends adds its answer to the layouts of the store. -/
theorem Sound.ended {id : LayoutId} {r : Except CompileError Layout} (h : Sound s P c)
    (hid : c.get? id = none) (hP : P id) (hr : ∀ l, r = .ok l → s.layout id = .ok l) :
    Sound s P (c.ended id r) := by
  cases r with
  | error e => exact h
  | ok l =>
    intro entry hentry
    change entry ∈ Table.put c.entries id l at hentry
    rw [Table.put_of_get?_none hid] at hentry
    rcases List.mem_append.1 hentry with hentry | hentry
    · exact h entry hentry
    · rw [List.mem_singleton.1 hentry]
      exact ⟨hP, hr l rfl⟩

/-- From the first cache, computations may have led to the second one. -/
structure Ahead (s : TypeStore) (P : LayoutId → Prop) (c c' : LayoutCache) : Prop where
  valid : Valid s c'
  sound : Sound s P c'
  inProgress : c'.inProgress = c.inProgress
  entries : c.entries <+: c'.entries

theorem Ahead.refl (hvalid : Valid s c) (hsound : Sound s P c) : Ahead s P c c :=
  ⟨hvalid, hsound, rfl, List.prefix_refl _⟩

theorem Ahead.trans (h : Ahead s P c c') (h' : Ahead s P c' c'') : Ahead s P c c'' :=
  ⟨h'.valid, h'.sound, h'.inProgress.trans h.inProgress, h.entries.trans h'.entries⟩

theorem ahead_empty (s : TypeStore) (P : LayoutId → Prop) : Ahead s P {} {} :=
  .refl (valid_empty s) fun _ h => absurd h List.not_mem_nil

/-- A request has this result and leads on to a cache of the same kind. -/
structure Answers (s : TypeStore) (P : LayoutId → Prop) (x : LayoutM Layout) (c : LayoutCache)
    (r : Except CompileError Layout) : Prop where
  result : (x.run c).1 = r
  ahead : Ahead s P c (x.run c).2

/-! ## One request -/

/-- A new layout is computed out of the answers to nested requests, and it is kept. -/
theorem answers_ensure_new {depth : Nat} {id : LayoutId}
    {nested : String → Except CompileError Layout} (hc : Ahead s P c c) (hP : P id)
    (hnew : c.get? id = none) (hid : id ∉ c.inProgress)
    (hnested : ∀ name, s.Needs id name → ∀ c', Ahead s P (c.started id) c' →
      Answers s P (ensure s depth (.full name)) c' (nested name))
    (hlayout : ∀ l, s.layoutWith nested id = .ok l → s.layout id = .ok l) :
    Answers s P (ensure s (depth + 1) id) c (s.layoutWith nested id) := by
  have halike : Alike (fun c' _ => Ahead s P (c.started id) c')
      (computeLayout s (fun name => ensure s depth (.full name)) id)
      (computeLayout s (fun name => liftM (nested name)) id) := by
    refine alike_computeLayout (.refl s id) fun name hname c' d hc' => ?_
    obtain ⟨hresult, hahead⟩ := hnested name hname c' hc'
    rw [hresult]
    cases nested name <;> exact ⟨rfl, hc'.trans hahead⟩
  have hstart : Ahead s P (c.started id) (c.started id) := .refl (hc.valid.start hnew) hc.sound
  obtain ⟨hresult, hvalid, hsound, hprogress, hentries⟩ := halike _ {} hstart
  rcases hrun : (computeLayout s (fun name => ensure s depth (.full name)) id).run (c.started id)
    with ⟨r, c'⟩
  rw [hrun] at hresult hvalid hsound hprogress hentries
  have hr : s.layoutWith nested id = r := hresult.symm
  have hkeeps := keeps_ensure s (depth + 1) id c hc.valid
  have hend := run_ensure_new hnew hid hrun
  rw [hr] at hlayout ⊢
  refine ⟨congrArg Prod.fst hend, hkeeps.valid, ?_, hkeeps.grows.inProgress, ?_⟩
  · rw [hend]
    exact hsound.ended (hvalid.unanswered hprogress) hP hlayout
  · rw [hend]
    exact hentries.trans (entries_prefix_ended (hvalid.unanswered hprogress) r)

/-! ## Nested requests -/

/-- The requests in progress end in those for the full layouts of the types on the path. -/
def OnPath (inProgress : List LayoutId) (path : List String) : Prop :=
  ∃ front, (∀ id ∈ front, ∀ name, id ≠ .full name) ∧ inProgress = front ++ path.map .full

section
variable {inProgress : List LayoutId} {path : List String} {name : String}

theorem OnPath.concat (h : OnPath inProgress path) :
    OnPath (inProgress ++ [.full name]) (path ++ [name]) := by
  obtain ⟨front, hfront, rfl⟩ := h
  exact ⟨front, hfront, by simp⟩

theorem OnPath.mem_iff (h : OnPath inProgress path) : .full name ∈ inProgress ↔ name ∈ path := by
  obtain ⟨front, hfront, rfl⟩ := h
  rw [List.mem_append, or_iff_right fun hmem => hfront _ hmem name rfl]
  simp

/-- The types that are named from a request in progress on. -/
theorem OnPath.dropWhile (h : OnPath inProgress path) :
    (inProgress.dropWhile (· ≠ .full name)).map (·.typeName) = path.dropWhile (· ≠ name) := by
  obtain ⟨front, hfront, rfl⟩ := h
  rw [List.dropWhile_append_of_pos fun id hid => by simpa using hfront id hid name,
    List.dropWhile_map, List.map_map]
  have hpred : ((fun id => decide (id ≠ LayoutId.full name)) ∘ LayoutId.full) =
      fun other => decide (other ≠ name) := by
    funext other
    simp
  rw [hpred]
  exact List.map_id _

end

/-- Below a path of types that contain each other, a request gives the layout below that path. -/
theorem answers_ensure_full (hclosed : ∀ id name, P id → s.Needs id name → P (.full name))
    (depth : Nat) :
    ∀ (path : List String) (name : String) (c : LayoutCache), Ahead s P c c → P (.full name) →
      OnPath c.inProgress path → (path ++ [name]).IsChain s.Embeds → path.Nodup →
      s.unvisited path < depth →
      Answers s P (ensure s depth (.full name)) c (s.layoutBelow path name) := by
  induction depth with
  | zero => exact fun path name c _ _ _ _ _ hdepth => absurd hdepth (Nat.not_lt_zero _)
  | succ depth ih =>
    intro path name c hc hP hpath hchain hdistinct hdepth
    cases hget : c.get? (.full name) with
    | some l =>
      have hrun := run_ensure_cached (s := s) (depth + 1) hget
      rw [TypeStore.layoutBelow_of_layout hchain (hc.sound.layout hget)]
      exact ⟨congrArg Prod.fst hrun, by rwa [hrun]⟩
    | none =>
      by_cases hmem : .full name ∈ c.inProgress
      · have hrun := run_ensure_pending (s := s) (depth + 1) hget hmem
        rw [hpath.dropWhile] at hrun
        rw [TypeStore.layoutBelow_of_mem (hpath.mem_iff.1 hmem)]
        exact ⟨congrArg Prod.fst hrun, by rwa [hrun]⟩
      · have hnot : name ∉ path := fun h => hmem (hpath.mem_iff.2 h)
        rw [TypeStore.layoutBelow_of_not_mem hnot]
        refine answers_ensure_new hc hP hget hmem (fun b hb c' hc' => ?_) fun l hl => ?_
        · have hcontains : s.contains name = true := by
            obtain ⟨t, ht, -⟩ := hb
            exact TypeStore.contains_of_get? ht
          have hlt := TypeStore.unvisited_concat_lt hcontains hnot
          refine ih (path ++ [name]) b c' (.refl hc'.valid hc'.sound) (hclosed _ b hP hb) ?_ ?_ ?_
            (by omega)
          · rw [hc'.inProgress, inProgress_started]
            exact hpath.concat
          · exact TypeStore.chain_concat hchain hb
          · exact TypeStore.nodup_concat hdistinct hnot
        · rw [← TypeStore.layoutBelow_of_not_mem hnot] at hl
          exact TypeStore.layoutBelow_of_ok hl fun b _ => List.not_mem_nil

/-! ## Requests one after the other -/

/-- With none in progress, a request gives the layout of the store. -/
theorem answers_request (hclosed : ∀ id name, P id → s.Needs id name → P (.full name))
    {id : LayoutId} (hc : Ahead s P c c) (hP : P id) (hnone : c.inProgress = []) :
    Answers s P (request s id) c (s.layout id) := by
  have hdepth := s.unvisited_nil_le
  cases hget : c.get? id with
  | some l =>
    have hrun := run_request (s := s) hget
    rw [hc.sound.layout hget]
    exact ⟨congrArg Prod.fst hrun, by rwa [hrun]⟩
  | none =>
    have hid : id ∉ c.inProgress := by
      rw [hnone]
      exact List.not_mem_nil
    have hpath (front : List LayoutId) (hfront : ∀ id ∈ front, ∀ name, id ≠ .full name) :
        OnPath front [] := ⟨front, hfront, by simp⟩
    cases id with
    | full name =>
      refine answers_ensure_full hclosed _ [] name c hc hP ?_ (List.isChain_singleton _)
        List.nodup_nil (by omega)
      rw [hnone]
      exact hpath [] (by simp)
    | bounced name | init name =>
      refine answers_ensure_new hc hP hget hid (fun b hb c' hc' => ?_) fun l hl => hl
      refine answers_ensure_full hclosed _ [] b c' (.refl hc'.valid hc'.sound) (hclosed _ b hP hb)
        ?_ (List.isChain_singleton _) List.nodup_nil (by omega)
      rw [hc'.inProgress, inProgress_started, hnone]
      exact hpath _ (by simp)

theorem fresh_request (s : TypeStore) (id : LayoutId) :
    ((request s id).run {}).1 = s.layout id :=
  (answers_request (fun _ _ _ _ => trivial) (ahead_empty s fun _ => True) trivial rfl).result

/-- Requests one after the other only add layouts of the store. -/
theorem ahead_after (s : TypeStore) (ids : List LayoutId) :
    Ahead s (fun _ => True) {} (after s ids) := by
  have hall : ∀ c, Ahead s (fun _ => True) {} c →
      Ahead s (fun _ => True) {} (ids.foldl (fun c id => ((request s id).run c).2) c) := by
    induction ids with
    | nil => exact fun c hc => hc
    | cons id ids ih =>
      refine fun c hc => ih _ (hc.trans ?_)
      exact (answers_request (fun _ _ _ _ => trivial) (.refl hc.valid hc.sound) trivial
        hc.inProgress).ahead
  exact hall {} (ahead_empty s _)

/--
After any requests, the result of a request is the one it has on an empty cache. None is in progress
then, what was kept stays, only ids that succeed on an empty cache are added, and not the id of a
request that fails. The types that a circle names contain each other in place.
-/
theorem request_transparent (s : TypeStore) (ids : List LayoutId) (id : LayoutId) :
    ((request s id).run (after s ids)).1 = ((request s id).run {}).1
      ∧ ((request s id).run (after s ids)).2.inProgress = []
      ∧ (∃ new, ((request s id).run (after s ids)).2.entries = (after s ids).entries ++ new
        ∧ ∀ entry ∈ new, ((request s entry.1).run {}).1 = .ok entry.2)
      ∧ (∀ e, ((request s id).run (after s ids)).1 = .error e →
        ((request s id).run (after s ids)).2.get? id = none)
      ∧ ∀ cycle, ((request s id).run (after s ids)).1 = .error (.cyclicDependency cycle) →
        Circle s.Embeds cycle := by
  have hafter := ahead_after s ids
  have hanswers : Answers s (fun _ => True) (request s id) (after s ids) (s.layout id) :=
    answers_request (fun _ _ _ _ => trivial) (.refl hafter.valid hafter.sound) trivial
      hafter.inProgress
  obtain ⟨hresult, hahead⟩ := hanswers
  rw [hresult]
  refine ⟨(fresh_request s id).symm, hahead.inProgress.trans hafter.inProgress, ?_, fun e he => ?_,
    fun cycle => TypeStore.circle_of_layout⟩
  · obtain ⟨new, hnew⟩ := hahead.entries
    refine ⟨new, hnew.symm, fun entry hentry => ?_⟩
    rw [fresh_request]
    exact (hahead.sound entry (hnew ▸ List.mem_append_right _ hentry)).2
  · by_contra hne
    obtain ⟨l, hl⟩ := Option.ne_none_iff_exists'.1 hne
    rw [hahead.sound.layout hl] at he
    cases he

end LayoutCache
end CellPack
