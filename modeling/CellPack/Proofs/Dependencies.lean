import Mathlib
import CellPack.DependencyOrder
import CellPack.Proofs.Steps
/-!
# Exactness of the dependency order

The order of a store fails for the first mention of a name that no field can have, else for records
that contain each other in a circle, and otherwise lists every record type behind all that it
contains (`TypeStore.dependencyOrder_exact`). A visit is followed with the path that leads to it:
what is finished has all its dependencies finished before it (`Finished`), and a dependency on the
path closes a circle (`circle_of_mem`).
-/

namespace CellPack

open Relation

/-! ## Circles -/

/-- Distinct names with an edge from each one to the next, and from the last one to the first. -/
structure Circle (E : String → String → Prop) (names : List String) : Prop where
  nonempty : names ≠ []
  distinct : names.Nodup
  closed : (names ++ names.head?.toList).IsChain E

section
variable {E : String → String → Prop}

theorem transGen_of_chain {a b : String} (names : List String)
    (h : (a :: (names ++ [b])).IsChain E) : TransGen E a b := by
  induction names generalizing a with
  | nil => exact .single (List.isChain_pair.1 h)
  | cons c names ih =>
    obtain ⟨hac, hrest⟩ := List.isChain_cons_cons.1 h
    exact .head hac (ih hrest)

theorem Circle.exists_cycle {names : List String} (h : Circle E names) :
    ∃ name, TransGen E name name := by
  obtain ⟨a, rest, rfl⟩ := List.exists_cons_of_ne_nil h.nonempty
  exact ⟨a, transGen_of_chain rest h.closed⟩

/-- An edge from the end of a path back to a name on it closes a circle. -/
theorem circle_of_mem {path : List String} {target : String}
    (hchain : (path ++ [target]).IsChain E) (hdistinct : path.Nodup) (h : target ∈ path) :
    Circle E (path.dropWhile (· ≠ target)) := by
  have hsuffix : path.dropWhile (· ≠ target) <:+ path := List.dropWhile_suffix _
  have hne : path.dropWhile (· ≠ target) ≠ [] := by
    intro hnil
    have := List.dropWhile_eq_nil_iff.1 hnil target h
    simp at this
  have hhead : (path.dropWhile (· ≠ target)).head? = some target := by
    have hnot := List.head?_dropWhile_not (· ≠ target) path
    obtain ⟨a, rest, heq⟩ := List.exists_cons_of_ne_nil hne
    rw [heq] at hnot ⊢
    simpa using hnot
  refine ⟨hne, hdistinct.sublist hsuffix.sublist, ?_⟩
  rw [hhead]
  obtain ⟨before, hbefore⟩ := hsuffix
  rw [← hbefore, List.append_assoc] at hchain
  exact hchain.right_of_append

end

/-! ## Finished names -/

/-- Distinct names, each behind everything that it has an edge to. -/
structure Finished (E : String → String → Prop) (done : List String) : Prop where
  distinct : done.Nodup
  behind : ∀ before name after, done = before ++ name :: after → ∀ b, E name b → b ∈ before

section
variable {E : String → String → Prop} {done : List String} {a b name : String}

theorem finished_nil : Finished E [] := ⟨List.nodup_nil, by simp⟩

theorem Finished.concat (h : Finished E done) (hname : name ∉ done)
    (hdeps : ∀ b, E name b → b ∈ done) : Finished E (done ++ [name]) := by
  refine ⟨List.nodup_append.2 ⟨h.distinct, by simp, by grind⟩, fun before other after heq b hb => ?_⟩
  -- the last name is the new one, and all others were there
  rcases List.eq_nil_or_concat' after with rfl | ⟨after, last, rfl⟩
  · obtain ⟨rfl, hlast⟩ := List.append_inj' heq rfl
    obtain rfl : name = other := List.singleton_inj.1 hlast
    exact hdeps b hb
  · rw [← List.cons_append, ← List.append_assoc] at heq
    exact h.behind before other after (List.append_inj' heq rfl).1 b hb

theorem Finished.idxOf_lt (h : Finished E done) (ha : a ∈ done) (hb : E a b) :
    b ∈ done ∧ done.idxOf b < done.idxOf a := by
  obtain ⟨before, after, rfl⟩ := List.mem_iff_append.1 ha
  have hmem := h.behind before a after rfl b hb
  have hnot : a ∉ before := fun hbefore =>
    (List.nodup_append.1 h.distinct).2.2 a hbefore a List.mem_cons_self rfl
  refine ⟨List.mem_append_left _ hmem, ?_⟩
  rw [List.idxOf_append_of_mem hmem, List.idxOf_append_of_notMem hnot, List.idxOf_cons_self]
  exact (List.idxOf_lt_length_iff.2 hmem).trans_le (Nat.le_add_right _ _)

theorem Finished.acyclic (h : Finished E done) (ha : a ∈ done) : ¬TransGen E a a := by
  have hlt : ∀ b, TransGen E a b → b ∈ done ∧ done.idxOf b < done.idxOf a := by
    intro b hab
    induction hab with
    | single hab => exact h.idxOf_lt ha hab
    | tail _ hbc ih =>
      obtain ⟨hb, hlt⟩ := ih
      obtain ⟨hc, hlt'⟩ := h.idxOf_lt hb hbc
      exact ⟨hc, hlt'.trans hlt⟩
  exact fun haa => lt_irrefl _ (hlt a haa).2

end

/-! ## Visits -/

/--
What visits from a list of roots may lead to: more finished names, the roots among them, all reached
from the roots and none of them on the path; or a circle.
-/
def Visited (E : String → String → Prop) (path roots done : List String) :
    Except CompileError (List String) → Prop
  | .ok done' => Finished E done' ∧ roots ⊆ done' ∧
    ∃ new, done' = done ++ new ∧ ∀ x ∈ new, x ∉ path ∧ ∃ root ∈ roots, ReflTransGen E root x
  | .error e => ∃ circle, e = .cyclicDependency circle ∧ Circle E circle

section
variable {E : String → String → Prop} {dependencies : String → List String}
  {path done : List String}

/-- Visits one after the other. -/
theorem visited_foldlM {step : List String → String → Except CompileError (List String)}
    (roots : List String)
    (hstep : ∀ done root, root ∈ roots → Finished E done → (∀ x ∈ path, x ∉ done) →
      Visited E path [root] done (step done root)) :
    ∀ done, Finished E done → (∀ x ∈ path, x ∉ done) →
      Visited E path roots done (roots.foldlM step done) := by
  induction roots with
  | nil => exact fun done hdone _ => ⟨hdone, List.nil_subset _, [], by simp, by simp⟩
  | cons root roots ih =>
    intro done hdone hpath
    have hroot := hstep done root List.mem_cons_self hdone hpath
    rw [List.foldlM_cons]
    cases hrun : step done root with
    | error e =>
      rw [hrun] at hroot
      exact hroot
    | ok next =>
      rw [hrun] at hroot
      obtain ⟨hnext, hmem, new, rfl, hnew⟩ := hroot
      have hpath' : ∀ x ∈ path, x ∉ done ++ new := by
        intro x hx hmem
        exact (List.mem_append.1 hmem).elim (hpath x hx) fun h => (hnew x h).1 hx
      have hrest := ih (fun done r hr => hstep done r (List.mem_cons_of_mem _ hr)) _ hnext hpath'
      change Visited E path (root :: roots) done (roots.foldlM step (done ++ new))
      cases hrun' : roots.foldlM step (done ++ new) with
      | error e =>
        rw [hrun'] at hrest
        exact hrest
      | ok done' =>
        rw [hrun'] at hrest
        obtain ⟨hdone', hsub, new', rfl, hnew'⟩ := hrest
        refine ⟨hdone', ?_, new ++ new', List.append_assoc _ _ _, fun x hx => ?_⟩
        · exact List.cons_subset.2 ⟨List.mem_append_left _ (hmem List.mem_cons_self), hsub⟩
        · rcases List.mem_append.1 hx with hx | hx
          · obtain ⟨hnot, r, hr, hreach⟩ := hnew x hx
            exact ⟨hnot, r, List.mem_cons.2 (.inl (List.mem_singleton.1 hr)), hreach⟩
          · obtain ⟨hnot, r, hr, hreach⟩ := hnew' x hx
            exact ⟨hnot, r, List.mem_cons_of_mem _ hr, hreach⟩

/-- A name is finished behind everything that it has an edge to. -/
theorem Visited.finish {name : String} {x : Except CompileError (List String)}
    (hE : ∀ b, b ∈ dependencies name ↔ E name b) (hpath : name ∉ path)
    (hdone : ∀ x ∈ path ++ [name], x ∉ done)
    (h : Visited E (path ++ [name]) (dependencies name) done x) :
    Visited E path [name] done (x >>= fun next => .ok (next ++ [name])) := by
  cases x with
  | error e => exact h
  | ok next =>
    obtain ⟨hnext, hdeps, new, rfl, hnew⟩ := h
    have hopen : name ∈ path ++ [name] := List.mem_append_right _ (List.mem_singleton_self name)
    have hname : name ∉ done ++ new := fun h =>
      (List.mem_append.1 h).elim (hdone name hopen) fun h => (hnew name h).1 hopen
    change Visited E path [name] done (.ok (done ++ new ++ [name]))
    refine ⟨hnext.concat hname fun b hb => hdeps ((hE b).2 hb), by simp, new ++ [name],
      List.append_assoc _ _ _, fun x hx => ?_⟩
    rcases List.mem_append.1 hx with hx | hx
    · obtain ⟨hnot, target, htarget, hreach⟩ := hnew x hx
      refine ⟨fun h => hnot (List.mem_append_left _ h), name, List.mem_singleton_self name, ?_⟩
      exact .head ((hE target).1 htarget) hreach
    · obtain rfl := List.mem_singleton.1 hx
      exact ⟨hpath, x, List.mem_singleton_self x, .refl⟩

/--
A visit at the end of a path of distinct names out of `names`, which are all that edges lead to. The
depth is enough since no path is longer than there are names.
-/
theorem visited_visit {names : List String} (hE : ∀ a b, b ∈ dependencies a ↔ E a b)
    (hnames : ∀ a b, E a b → b ∈ names) (n : Nat) :
    ∀ (path done : List String) (name : String), (path ++ [name]).IsChain E →
      (path ++ [name]).Nodup → path ++ [name] ⊆ names → names.length < n + path.length →
      Finished E done → (∀ x ∈ path, x ∉ done) →
      Visited E path [name] done (visit dependencies n path done name) := by
  induction n with
  | zero =>
    intro path done name _ hdistinct hsub hlen _ _
    have hle := (List.subperm_of_subset hdistinct hsub).length_le
    rw [List.length_append, List.length_singleton] at hle
    omega
  | succ n ih =>
    intro path done name hchain hdistinct hsub hlen hdone hpath
    unfold visit
    split
    · next hmem => exact ⟨hdone, by simpa using hmem, [], by simp, by simp⟩
    · next hmem =>
      obtain ⟨-, -, hlast⟩ := List.nodup_append.1 hdistinct
      have hfresh : name ∉ path := fun h => hlast name h name (List.mem_singleton_self name) rfl
      have hopen : ∀ x ∈ path ++ [name], x ∉ done :=
        List.forall_mem_append.2 ⟨hpath, by simpa using hmem⟩
      refine Visited.finish (hE name) hfresh hopen ?_
      refine visited_foldlM (dependencies name) (fun done target htarget hdone hopen => ?_) done
        hdone hopen
      -- a dependency closes a circle or is visited one level deeper
      have hedge := (hE name target).1 htarget
      have hchain' : (path ++ [name] ++ [target]).IsChain E := by
        rw [List.append_assoc]
        exact List.isChain_append_cons_cons.2 ⟨hchain, hedge, List.isChain_singleton _⟩
      split
      · next hback => exact ⟨_, rfl, circle_of_mem hchain' hdistinct hback⟩
      · next hback =>
        refine ih _ done target hchain' ?_ ?_ ?_ hdone hopen
        · exact List.nodup_append.2 ⟨hdistinct, by simp, by grind⟩
        · exact List.append_subset.2 ⟨hsub, by simpa using hnames name target hedge⟩
        · rw [List.length_append, List.length_singleton]
          omega

end

/-! ## Record types by name -/

namespace TypeStore

variable {s : TypeStore} {t : RecordType} {name : String}

theorem get?_of_mem (ht : t ∈ s.types) : s.get? t.name = some t := by
  cases hfind : s.get? t.name with
  | none => simpa using List.find?_eq_none.1 hfind t ht
  | some t' =>
    have hname : t'.name = t.name := by simpa using List.find?_some hfind
    have hmem := List.mem_of_find?_eq_some hfind
    rw [List.inj_on_of_nodup_map s.types_distinct hmem ht hname]

theorem mem_of_get? (h : s.get? name = some t) : t ∈ s.types := List.mem_of_find?_eq_some h

theorem name_of_get? (h : s.get? name = some t) : t.name = name := by
  simpa using List.find?_some h

/-! ## Mentions and dependencies -/

/-- A record type of this name is declared, and a field can have it. -/
def Declares (s : TypeStore) (name : String) : Prop :=
  ∃ t ∈ s.types, t.name = name ∧ (t.kind = .struct ∨ t.kind = .message)

/-- A field or a parameter of the first record type is a record of the second one, in place. -/
def DependsOn (s : TypeStore) (a b : String) : Prop :=
  ∃ t ∈ s.types, t.name = a ∧ ∃ f ∈ t.allFields, f.type = .record b

/-- All names that fields and parameters mention are those of record types that they can have. -/
def Resolved (s : TypeStore) : Prop :=
  ∀ t ∈ s.types, ∀ f ∈ t.allFields, ∀ name ∈ f.type.mentioned, s.Declares name

/--
Every mention of a name, with its record type and its field, in the order of declaration: of types,
then of fields, with the parameters behind them, then from left to right.
-/
def mentions (s : TypeStore) : List (String × String × String) :=
  s.types.flatMap fun t =>
    t.allFields.flatMap fun f => f.type.mentioned.map fun name => (t.name, f.name, name)

/-- The first mention of a name that is not declared for fields. -/
def FirstUnresolved (s : TypeStore) (type field name : String) : Prop :=
  ∃ before after, s.mentions = before ++ (type, field, name) :: after
    ∧ (∀ m ∈ before, s.Declares m.2.2) ∧ ¬s.Declares name

/-- The list has each record type once, behind all that it depends on and not without need. -/
structure Ordered (s : TypeStore) (order : List String) : Prop where
  perm : order.Perm (s.types.map (·.name))
  behind : ∀ a b, s.DependsOn a b → order.idxOf b < order.idxOf a
  /-- What goes before a type that is declared earlier is needed for that type or for an earlier one. -/
  needed : ∀ x ∈ s.types.map (·.name), ∀ y ∈ s.types.map (·.name),
    (s.types.map (·.name)).idxOf x < (s.types.map (·.name)).idxOf y →
    order.idxOf y < order.idxOf x →
    ∃ z ∈ s.types.map (·.name), (s.types.map (·.name)).idxOf z ≤ (s.types.map (·.name)).idxOf x
      ∧ TransGen s.DependsOn z y

theorem isFieldType_iff : s.isFieldType name = true ↔ s.Declares name := by
  have hkind : ∀ kind : RecordKind, kind.isFieldType = true ↔ kind = .struct ∨ kind = .message := by
    intro kind
    cases kind <;> decide
  unfold isFieldType
  cases hget : s.get? name with
  | none =>
    refine ⟨nofun, fun ⟨t, ht, hname, _⟩ => ?_⟩
    rw [← hname, get?_of_mem ht] at hget
    cases hget
  | some t =>
    refine (hkind t.kind).trans ⟨fun h => ⟨t, mem_of_get? hget, name_of_get? hget, h⟩, ?_⟩
    rintro ⟨t', ht', hname, h⟩
    rw [← hname, get?_of_mem ht'] at hget
    exact Option.some.inj hget ▸ h

theorem mem_dependencies (a b : String) : b ∈ s.dependencies a ↔ s.DependsOn a b := by
  have hfield : ∀ f : Field, f.type.inlineRecord? = some b ↔ f.type = .record b := by
    intro f
    cases f.type <;> simp [FieldType.inlineRecord?]
  unfold dependencies
  cases hget : s.get? a with
  | none =>
    refine ⟨nofun, fun ⟨t, ht, hname, _⟩ => ?_⟩
    rw [← hname, get?_of_mem ht] at hget
    cases hget
  | some t =>
    simp only [List.mem_filterMap, hfield]
    refine ⟨fun h => ⟨t, mem_of_get? hget, name_of_get? hget, h⟩, ?_⟩
    rintro ⟨t', ht', hname, h⟩
    rw [← hname, get?_of_mem ht'] at hget
    exact Option.some.inj hget ▸ h

theorem Resolved.mem_names (h : s.Resolved) (a b : String) (hab : s.DependsOn a b) :
    b ∈ s.types.map (·.name) := by
  obtain ⟨t, ht, -, f, hf, htype⟩ := hab
  obtain ⟨t', ht', hname, -⟩ := h t ht f hf b (by simp [htype, FieldType.mentioned])
  exact List.mem_map.2 ⟨t', ht', hname⟩

theorem resolved_iff : s.Resolved ↔ ∀ m ∈ s.mentions, s.Declares m.2.2 := by
  simp only [Resolved, mentions, List.forall_mem_flatMap, List.forall_mem_map]

theorem FirstUnresolved.not_resolved {type field : String} (h : s.FirstUnresolved type field name) :
    ¬s.Resolved := by
  obtain ⟨before, after, hmentions, -, hname⟩ := h
  exact fun hres => hname (resolved_iff.1 hres (type, field, name) (by simp [hmentions]))

theorem FirstUnresolved.find? {type field : String} (h : s.FirstUnresolved type field name) :
    s.mentions.find? (fun m => !s.isFieldType m.2.2) = some (type, field, name) := by
  obtain ⟨before, after, hmentions, hbefore, hname⟩ := h
  rw [← isFieldType_iff] at hname
  refine List.find?_eq_some_iff_append.2 ⟨by simpa using hname, before, after, hmentions, ?_⟩
  intro m hm
  simpa using isFieldType_iff.2 (hbefore m hm)

theorem FirstUnresolved.unique {type type' field field' name' : String}
    (h : s.FirstUnresolved type field name) (h' : s.FirstUnresolved type' field' name') :
    type = type' ∧ field = field' ∧ name = name' := by
  simpa using Option.some.inj (h.find?.symm.trans h'.find?)

/-! ### The check of mentions -/

theorem checkAllMentions_eq (s : TypeStore) :
    s.checkAllMentions = forM s.mentions fun m =>
      if s.isFieldType m.2.2 then .ok () else .error (.unresolvedType m.1 m.2.1 m.2.2) := by
  rw [mentions, forM_flatMap]
  refine congrArg (List.forM s.types) (funext fun t => ?_)
  rw [forM_flatMap]
  refine congrArg (List.forM t.allFields) (funext fun f => ?_)
  rw [List.forM_map]
  rfl

theorem checkAllMentions_eq_ok : s.checkAllMentions = .ok () ↔ s.Resolved := by
  rw [checkAllMentions_eq, resolved_iff]
  refine forM_eq_ok.trans (forall₂_congr fun m _ => ?_)
  rw [← isFieldType_iff]
  split <;> simp_all

theorem checkAllMentions_eq_error {e : CompileError} (h : s.checkAllMentions = .error e) :
    ∃ type field name, e = .unresolvedType type field name ∧ s.FirstUnresolved type field name := by
  rw [checkAllMentions_eq] at h
  obtain ⟨before, m, after, hmentions, hbefore, hm⟩ := forM_eq_error h
  split at hm
  · cases hm
  · next hname =>
    cases hm
    refine ⟨m.1, m.2.1, m.2.2, rfl, before, after, hmentions, fun m' hm' => ?_, ?_⟩
    · have := hbefore m' hm'
      split at this
      · next hname => exact isFieldType_iff.1 hname
      · cases this
    · exact fun hdecl => hname (isFieldType_iff.2 hdecl)

/-! ### The visits -/

/-- Visits record types one after the other, none of them on the way to another one. -/
def visitAll (s : TypeStore) (done names : List String) : Except CompileError (List String) :=
  names.foldlM (visit s.dependencies (s.size + 1) []) done

theorem dependencyOrder_eq (s : TypeStore) :
    s.dependencyOrder = (s.checkAllMentions >>= fun _ => s.visitAll [] (s.types.map (·.name))) := by
  rw [visitAll, List.foldlM_map]
  rfl

theorem visited_visitAll (h : s.Resolved) {done roots : List String}
    (hroots : roots ⊆ s.types.map (·.name)) (hdone : Finished s.DependsOn done) :
    Visited s.DependsOn [] roots done (s.visitAll done roots) := by
  refine visited_foldlM roots (fun done root hroot hdone hpath => ?_) done hdone (by simp)
  refine visited_visit mem_dependencies h.mem_names _ [] done root ?_ ?_ ?_ ?_ hdone hpath
  · exact List.isChain_singleton _
  · exact List.nodup_singleton _
  · simpa using hroots hroot
  · simp [size]

theorem mem_names_of_reachable (h : s.Resolved) {a b : String} (ha : a ∈ s.types.map (·.name))
    (hab : ReflTransGen s.DependsOn a b) : b ∈ s.types.map (·.name) := by
  rcases hab.cases_tail with rfl | ⟨c, -, hcb⟩
  · exact ha
  · exact h.mem_names c b hcb

/-- Types that go before an earlier one are reached from a type that is not later than that. -/
theorem needed_of_visitAll (h : s.Resolved) {order : List String}
    (horder : s.visitAll [] (s.types.map (·.name)) = .ok order) {x y : String}
    (hx : x ∈ s.types.map (·.name))
    (hxy : (s.types.map (·.name)).idxOf x < (s.types.map (·.name)).idxOf y)
    (hyx : order.idxOf y < order.idxOf x) :
    ∃ z ∈ s.types.map (·.name), (s.types.map (·.name)).idxOf z ≤ (s.types.map (·.name)).idxOf x
      ∧ TransGen s.DependsOn z y := by
  have hdistinct := s.types_distinct
  have hvisited (done roots : List String) (hroots : roots ⊆ s.types.map (·.name))
      (hdone : Finished s.DependsOn done) := visited_visitAll h hroots hdone
  generalize s.types.map (·.name) = names at *
  obtain ⟨before, after, rfl⟩ := List.mem_iff_append.1 hx
  -- the visits are cut behind the earlier one of the two
  rw [List.append_cons, visitAll, List.foldlM_append, bind_eq_ok] at horder
  obtain ⟨mid, hmid, hrest⟩ := horder
  have hfirst := hvisited [] (before ++ [x]) (by grind) finished_nil
  rw [visitAll, hmid] at hfirst
  obtain ⟨hfinished, hsub, _, rfl, hnew⟩ := hfirst
  have hlater := hvisited _ after (by grind) hfinished
  rw [visitAll, hrest] at hlater
  obtain ⟨-, -, new', rfl, -⟩ := hlater
  have hxmid : x ∈ mid := hsub (List.mem_append_right _ (List.mem_singleton_self x))
  have hymid : y ∈ mid := by
    by_contra hnot
    rw [List.idxOf_append_of_mem hxmid, List.idxOf_append_of_notMem hnot] at hyx
    have := List.idxOf_lt_length_of_mem hxmid
    omega
  obtain ⟨-, z, hz, hreach⟩ := hnew y hymid
  have hxidx : (before ++ x :: after).idxOf x = before.length := by
    have hnot : x ∉ before := fun hmem =>
      (List.nodup_append.1 hdistinct).2.2 x hmem x List.mem_cons_self rfl
    rw [List.idxOf_append_of_notMem hnot, List.idxOf_cons_self, Nat.add_zero]
  have hzidx : (before ++ x :: after).idxOf z ≤ before.length := by
    have hlt := List.idxOf_lt_length_of_mem hz
    rw [List.append_cons, List.idxOf_append_of_mem hz]
    rw [List.length_append, List.length_singleton] at hlt
    omega
  refine ⟨z, by grind, hzidx.trans hxidx.ge, ?_⟩
  rcases reflTransGen_iff_eq_or_transGen.1 hreach with rfl | hreach
  · omega
  · exact hreach

theorem ordered_of_visitAll (h : s.Resolved) {order : List String}
    (horder : s.visitAll [] (s.types.map (·.name)) = .ok order) : s.Ordered order := by
  have hall := visited_visitAll h (List.Subset.refl _) finished_nil
  rw [horder] at hall
  obtain ⟨hfinished, hsub, new, hnew, hreached⟩ := hall
  have hmem : ∀ name, name ∈ order ↔ name ∈ s.types.map (·.name) := by
    refine fun name => ⟨fun hname => ?_, fun hname => hsub hname⟩
    rw [hnew, List.nil_append] at hname
    obtain ⟨-, root, hroot, hreach⟩ := hreached name hname
    exact mem_names_of_reachable h hroot hreach
  refine ⟨(List.perm_ext_iff_of_nodup hfinished.distinct s.types_distinct).2 hmem, ?_, ?_⟩
  · intro a b hab
    have ha : a ∈ order := by
      obtain ⟨t, ht, rfl, -⟩ := hab
      exact hsub (List.mem_map_of_mem ht)
    exact (hfinished.idxOf_lt ha hab).2
  · exact fun x hx y _ hxy hyx => needed_of_visitAll h horder hx hxy hyx

/-! ### Results -/

/-- What an order that is found says about the store. -/
theorem dependencyOrder_ok {order : List String} (h : s.dependencyOrder = .ok order) :
    s.Resolved ∧ s.Ordered order := by
  rw [dependencyOrder_eq] at h
  obtain ⟨⟨⟩, hcheck, hvisits⟩ := bind_eq_ok.1 h
  have hres := checkAllMentions_eq_ok.1 hcheck
  exact ⟨hres, ordered_of_visitAll hres hvisits⟩

/-- There is no other error than a mention that is not resolved or a circle. -/
theorem dependencyOrder_error {e : CompileError} (h : s.dependencyOrder = .error e) :
    (∃ type field name, e = .unresolvedType type field name ∧ s.FirstUnresolved type field name)
      ∨ s.Resolved ∧ ∃ circle, e = .cyclicDependency circle ∧ Circle s.DependsOn circle := by
  rw [dependencyOrder_eq] at h
  cases hcheck : s.checkAllMentions with
  | error e' =>
    rw [hcheck] at h
    cases h
    exact .inl (checkAllMentions_eq_error hcheck)
  | ok u =>
    have hres := checkAllMentions_eq_ok.1 hcheck
    have hall := visited_visitAll hres (List.Subset.refl _) finished_nil
    rw [hcheck] at h
    change s.visitAll [] (s.types.map (·.name)) = .error e at h
    rw [h] at hall
    exact .inr ⟨hres, hall⟩

theorem Ordered.acyclic {order : List String} (h : s.Ordered order) (name : String) :
    ¬TransGen s.DependsOn name name := by
  have hlt : ∀ b, TransGen s.DependsOn name b → order.idxOf b < order.idxOf name := by
    intro b hb
    induction hb with
    | single hab => exact h.behind _ _ hab
    | tail _ hbc ih => exact (h.behind _ _ hbc).trans ih
  exact fun hcycle => lt_irrefl _ (hlt name hcycle)

/--
The order fails at the first mention of a name that is not declared for fields; without one it fails
exactly if records contain each other in a circle, and gives such a circle; otherwise it lists every
record type once, behind all that it depends on, with none moved forward without need.
-/
theorem dependencyOrder_exact (s : TypeStore) :
    (∀ type field name, s.dependencyOrder = .error (.unresolvedType type field name)
        ↔ s.FirstUnresolved type field name)
      ∧ ((∃ type field name, s.dependencyOrder = .error (.unresolvedType type field name))
        ↔ ¬s.Resolved)
      ∧ ((∃ circle, s.dependencyOrder = .error (.cyclicDependency circle))
        ↔ s.Resolved ∧ ∃ name, TransGen s.DependsOn name name)
      ∧ (∀ circle, s.dependencyOrder = .error (.cyclicDependency circle) →
        Circle s.DependsOn circle)
      ∧ ((∃ order, s.dependencyOrder = .ok order)
        ↔ s.Resolved ∧ ∀ name, ¬TransGen s.DependsOn name name)
      ∧ ∀ order, s.dependencyOrder = .ok order → s.Ordered order := by
  have hends : (∃ type field name, s.dependencyOrder = .error (.unresolvedType type field name)
        ∧ s.FirstUnresolved type field name)
      ∨ (s.Resolved ∧ ∃ circle, s.dependencyOrder = .error (.cyclicDependency circle)
        ∧ Circle s.DependsOn circle)
      ∨ s.Resolved ∧ ∃ order, s.dependencyOrder = .ok order ∧ s.Ordered order := by
    cases hrun : s.dependencyOrder with
    | error e =>
      rcases dependencyOrder_error hrun with ⟨type, field, name, rfl, h⟩ | ⟨hres, circle, rfl, h⟩
      · exact .inl ⟨type, field, name, rfl, h⟩
      · exact .inr (.inl ⟨hres, circle, rfl, h⟩)
    | ok order =>
      obtain ⟨hres, hordered⟩ := dependencyOrder_ok hrun
      exact .inr (.inr ⟨hres, order, rfl, hordered⟩)
  rcases hends with ⟨type, field, name, hrun, h⟩ | ⟨hres, circle, hrun, h⟩ | ⟨hres, order, hrun, h⟩
  · rw [hrun]
    have hnot := h.not_resolved
    refine ⟨fun type' field' name' => ⟨?_, fun h' => ?_⟩, ?_⟩
    · rintro ⟨⟩
      exact h
    · obtain ⟨rfl, rfl, rfl⟩ := h.unique h'
      rfl
    · simp [hnot]
  · rw [hrun]
    have hcycle := h.exists_cycle
    have hnone : ∀ type field name, ¬s.FirstUnresolved type field name :=
      fun _ _ _ h => h.not_resolved hres
    simp [hres, hcycle, hnone, h]
  · rw [hrun]
    have hnone : ∀ type field name, ¬s.FirstUnresolved type field name :=
      fun _ _ _ h => h.not_resolved hres
    simp [hres, h.acyclic, hnone, h]

end TypeStore
end CellPack
