import Mathlib
import CellPack.Machine.Run
import CellPack.Procedure.Basic
/-!
# Programs of registered procedures

The first procedure of a name is registered, and the first program of a name counts. So a program
is found under its name if all procedures of that name have it (`Registry.get?_programs`).
-/

namespace CellPack

namespace Table

variable {κ ν : Type} [DecidableEq κ]

theorem get?_append (t t' : Table κ ν) (key : κ) :
    get? (t ++ t') key = (get? t key).or (get? t' key) := by
  induction t with
  | nil => rfl
  | cons entry t ih =>
    obtain ⟨k, v⟩ := entry
    by_cases hk : k = key
    · simp only [List.cons_append, get?, if_pos hk, Option.some_or]
    · simp only [List.cons_append, get?, if_neg hk, ih]

theorem mem_of_get? {t : Table κ ν} {key : κ} {value : ν} (h : get? t key = some value) :
    (key, value) ∈ t := by
  induction t with
  | nil => cases h
  | cons entry t ih =>
    obtain ⟨k, v⟩ := entry
    by_cases hk : k = key
    · subst hk
      rw [get?, if_pos rfl] at h
      cases h
      exact List.mem_cons_self
    · rw [get?, if_neg hk] at h
      exact List.mem_cons_of_mem _ (ih h)

theorem contains_iff {t : Table κ ν} {key : κ} : contains t key = true ↔ key ∈ t.map (·.1) := by
  constructor
  · intro h
    obtain ⟨value, hvalue⟩ := Option.isSome_iff_exists.1 h
    exact List.mem_map_of_mem (mem_of_get? hvalue)
  · intro h
    obtain ⟨entry, hentry, rfl⟩ := List.mem_map.1 h
    obtain ⟨before, after, rfl⟩ := List.append_of_mem hentry
    simp [contains, get?_append, get?]

/-- In a table with different keys, each entry is the one under its key. -/
theorem get?_of_mem {t : Table κ ν} {key : κ} {value : ν} (hkeys : (t.map (·.1)).Nodup)
    (h : (key, value) ∈ t) : get? t key = some value := by
  have hcontains : contains t key = true := contains_iff.2 (List.mem_map_of_mem h)
  obtain ⟨value', hvalue⟩ := Option.isSome_iff_exists.1 hcontains
  cases List.inj_on_of_nodup_map hkeys (mem_of_get? hvalue) h rfl
  exact hvalue

theorem get?_putNew (t : Table κ ν) (key key' : κ) (value : ν) :
    get? (putNew t key value) key' =
      (get? t key').or (if key = key' then some value else none) := by
  unfold putNew
  split
  · next h =>
    by_cases hk : key = key'
    · subst hk
      obtain ⟨v, hv⟩ := Option.isSome_iff_exists.1 h
      rw [hv, Option.some_or]
    · rw [if_neg hk, Option.or_none]
  · exact get?_append t _ key'

/-- Values under different keys that are new are all added. -/
theorem foldl_putNew {key : ν → κ} {values : List ν} (hdistinct : (values.map key).Nodup) :
    ∀ {t : Table κ ν}, (∀ v ∈ values, key v ∉ t.map (·.1)) →
      values.foldl (fun t v => putNew t (key v) v) t = t ++ values.map fun v => (key v, v) := by
  induction values with
  | nil => simp
  | cons v values ih =>
    intro t hnew
    obtain ⟨hv, hvalues⟩ := List.forall_mem_cons.1 hnew
    obtain ⟨hother, hrest⟩ := List.nodup_cons.1 hdistinct
    have hput : putNew t (key v) v = t ++ [(key v, v)] := if_neg fun h => hv (contains_iff.1 h)
    have hnew' : ∀ w ∈ values, key w ∉ (t ++ [(key v, v)]).map (·.1) := by
      intro w hw hmem
      rw [List.map_append, List.mem_append] at hmem
      rcases hmem with hmem | hmem
      · exact hvalues w hw hmem
      · obtain heq : key w = key v := by simpa using hmem
        exact hother (heq ▸ List.mem_map_of_mem hw)
    rw [List.foldl_cons, hput, ih hrest hnew', List.append_assoc]
    rfl

end Table

namespace ProgramSet

/-- The first program of a name counts. -/
theorem get?_ofList (ps : List Program) (name : String) :
    Table.get? (ofList ps) name = ps.find? (·.name = name) := by
  have h : ∀ set : ProgramSet, Table.get? (ps.foldl insert set) name =
      (Table.get? set name).or (ps.find? (·.name = name)) := by
    induction ps with
    | nil => exact fun set => (Option.or_none).symm
    | cons p ps ih =>
      intro set
      rw [List.foldl_cons, ih, insert, Table.get?_putNew, Option.or_assoc, List.find?_cons]
      by_cases hp : p.name = name
      · simp [hp]
      · simp [hp]
  exact h []

/-- Programs of different names are all in the set. -/
theorem ofList_eq {ps : List Program} (h : (ps.map (·.name)).Nodup) :
    ofList ps = ps.map fun p => (p.name, p) :=
  Table.foldl_putNew h (by simp)

/-- A program under its name, of the kind that is looked for. -/
theorem lookup_eq {set : ProgramSet} {p : Program} {parser : Bool} {name : String}
    (h : Table.get? set name = some p) (hkind : (p.kind != .serializer) = parser) :
    set.lookup parser name = .ok p := by
  rw [lookup, h]
  exact if_pos hkind

end ProgramSet

namespace Registry

theorem get?_add (r : Registry) (p : Procedure) (name : String) :
    (r.add p).2.get? name = (r.get? name).or (if p.name = name then some p else none) := by
  rw [get?, get?, ← Table.get?_putNew]
  unfold add Table.putNew
  split <;> rfl

/-- The first procedure of a name is registered. -/
theorem get?_addAll (ps : List Procedure) (r : Registry) (name : String) :
    (r.addAll ps).get? name = (r.get? name).or (ps.find? (·.name = name)) := by
  induction ps generalizing r with
  | nil => exact Option.or_none.symm
  | cons p ps ih =>
    have hadd : r.addAll (p :: ps) = (r.add p).2.addAll ps := rfl
    rw [hadd, ih, get?_add, Option.or_assoc, List.find?_cons]
    by_cases hp : p.name = name
    · simp [hp]
    · simp [hp]

theorem mem_addAll {ps : List Procedure} {r : Registry} {entry : String × Procedure}
    (h : entry ∈ (r.addAll ps).procedures) :
    entry ∈ r.procedures ∨ entry.2 ∈ ps ∧ entry.1 = entry.2.name := by
  induction ps generalizing r with
  | nil => exact .inl h
  | cons p ps ih =>
    rcases ih (r := (r.add p).2) h with h | ⟨h, hname⟩
    · unfold add at h
      split at h
      · exact .inl h
      · rcases List.mem_append.1 h with h | h
        · exact .inl h
        · obtain rfl := List.mem_singleton.1 h
          exact .inr ⟨List.mem_cons_self, rfl⟩
    · exact .inr ⟨List.mem_cons_of_mem _ h, hname⟩

/-- If there are procedures of a name, one of them is registered. -/
theorem exists_get?_addAll {r : Registry} {ps : List Procedure} {name : String}
    (hr : r.procedures = []) (h : ∃ p ∈ ps, p.name = name) :
    ∃ q ∈ ps, q.name = name ∧ (r.addAll ps).get? name = some q := by
  have hnone : r.get? name = none := by
    rw [get?, hr]
    rfl
  obtain ⟨p, hp, hname⟩ := h
  cases hfind : ps.find? (·.name = name) with
  | none => simpa [hname] using List.find?_eq_none.1 hfind p hp
  | some q =>
    refine ⟨q, List.mem_of_find?_eq_some hfind, by simpa using List.find?_some hfind, ?_⟩
    rw [get?_addAll, hnone, hfind, Option.none_or]

/-- A program is found if all procedures of its name have it, and there is one. -/
theorem get?_programs {r : Registry} {ps : List Procedure} {p : Program} (hr : r.procedures = [])
    (hnamed : ∀ q ∈ ps, ∀ program, q.program = some program → program.name = q.name)
    (hmem : ∃ q ∈ ps, q.name = p.name)
    (hunique : ∀ q ∈ ps, q.name = p.name → q.program = some p) :
    Table.get? (r.addAll ps).programs p.name = some p := by
  have hentries : ∀ entry ∈ (r.addAll ps).procedures, entry.2 ∈ ps ∧ entry.1 = entry.2.name := by
    intro entry hentry
    refine (mem_addAll hentry).resolve_left ?_
    rw [hr]
    exact List.not_mem_nil
  obtain ⟨q, -, hname, hq⟩ := exists_get?_addAll hr hmem
  have hq := Table.mem_of_get? hq
  have hfound : p ∈ (r.addAll ps).procedures.filterMap (·.2.program) :=
    List.mem_filterMap.2 ⟨_, hq, hunique q (hentries _ hq).1 hname⟩
  rw [programs, ProgramSet.get?_ofList]
  cases hfind : ((r.addAll ps).procedures.filterMap (·.2.program)).find? (·.name = p.name) with
  | none => simpa using List.find?_eq_none.1 hfind p hfound
  | some first =>
    obtain ⟨entry, hentry, hprogram⟩ := List.mem_filterMap.1 (List.mem_of_find?_eq_some hfind)
    have hfirst : first.name = p.name := by simpa using List.find?_some hfind
    have hps := (hentries entry hentry).1
    rw [← hprogram, hunique entry.2 hps ((hnamed entry.2 hps first hprogram).symm.trans hfirst)]

/-! ## Registered procedures -/

theorem add_eq_true {r : Registry} {p : Procedure} :
    (r.add p).1 = true ↔ p.name ∉ r.procedures.map (·.1) := by
  rw [← Table.contains_iff]
  unfold add
  split
  · next h => simp [h]
  · next h => simp [h]

/-- Procedures of different names are all registered. -/
theorem procedures_addAll {r : Registry} {ps : List Procedure} (hr : r.procedures = [])
    (h : (ps.map (·.name)).Nodup) : (r.addAll ps).procedures = ps.map fun p => (p.name, p) := by
  have hfold : ∀ (ps : List Procedure) (r : Registry), (r.addAll ps).procedures =
      ps.foldl (fun t p => Table.putNew t p.name p) r.procedures := by
    intro ps
    induction ps with
    | nil => exact fun _ => rfl
    | cons p ps ih =>
      intro r
      refine (ih (r.add p).2).trans ?_
      unfold add Table.putNew
      rw [List.foldl_cons]
      split <;> rfl
  rw [hfold, hr]
  exact Table.foldl_putNew h (by simp)

/-- Each of them is, when its turn comes. -/
theorem add_addAll {r : Registry} {before after : List Procedure} {p : Procedure}
    (hr : r.procedures = []) (h : ((before ++ p :: after).map (·.name)).Nodup) :
    ((r.addAll before).add p).1 = true := by
  rw [List.map_append, List.map_cons, List.nodup_middle] at h
  obtain ⟨hnew, hrest⟩ := List.nodup_cons.1 h
  rw [add_eq_true, procedures_addAll hr hrest.of_append_left, List.map_map]
  exact fun hmem => hnew (List.mem_append_left _ hmem)

/-- Procedures stand under their own names, each of which is there once. -/
structure Proper (r : Registry) : Prop where
  named : ∀ entry ∈ r.procedures, entry.1 = entry.2.name
  distinct : (r.procedures.map (·.1)).Nodup

theorem Proper.of_nil {r : Registry} (h : r.procedures = []) : r.Proper := by
  constructor <;> simp [h]

theorem Proper.add {r : Registry} (h : r.Proper) (p : Procedure) : (r.add p).2.Proper := by
  unfold Registry.add
  split
  · exact h
  · next hnew =>
    refine ⟨fun entry hentry => ?_, ?_⟩
    · rcases List.mem_append.1 hentry with hentry | hentry
      · exact h.named entry hentry
      · rw [List.mem_singleton.1 hentry]
    · rw [List.map_append, List.nodup_append]
      refine ⟨h.distinct, by simp, ?_⟩
      rintro name hname _ hp rfl
      obtain rfl : name = p.name := by simpa using hp
      exact hnew (Table.contains_iff.2 hname)

theorem Proper.addAll (ps : List Procedure) : ∀ {r : Registry}, r.Proper → (r.addAll ps).Proper := by
  induction ps with
  | nil => exact fun h => h
  | cons p ps ih => exact fun h => ih (h.add p)

theorem exists_of_mem_extract {r : Registry} {comments : Bool} {p : Procedure}
    (h : p ∈ r.extract comments) : ∃ entry ∈ r.procedures, entry.2.part = p.part := by
  obtain ⟨entry, hentry, rfl⟩ := List.mem_map.1 h
  exact ⟨entry, hentry, by cases comments <;> rfl⟩

/-- Extraction may take comments away, and keeps the names. -/
theorem Proper.names_extract {r : Registry} (h : r.Proper) (comments : Bool) :
    (r.extract comments).map (·.name) = r.procedures.map (·.1) := by
  unfold extract
  rw [List.map_map]
  refine List.map_congr_left fun entry hentry => ?_
  cases comments <;> exact (h.named entry hentry).symm

/-- Extracted are the registered procedures, with their comments or without. -/
theorem Proper.mem_extract {r : Registry} (h : r.Proper) {comments : Bool} {p : Procedure} :
    p ∈ r.extract comments ↔ ∃ q, r.get? p.name = some q
      ∧ p = if comments then q else { q with comment := none } := by
  have hname (q : Procedure) :
      (if comments then q else { q with comment := none }).name = q.name := by
    cases comments <;> rfl
  constructor
  · intro hp
    obtain ⟨⟨name, q⟩, hq, rfl⟩ := List.mem_map.1 hp
    refine ⟨q, Table.get?_of_mem h.distinct ?_, rfl⟩
    rw [hname, ← h.named _ hq]
    exact hq
  · rintro ⟨q, hq, heq⟩
    exact List.mem_map.2 ⟨_, Table.mem_of_get? hq, heq.symm⟩

theorem Proper.exists_mem_extract {r : Registry} (h : r.Proper) {name : String} {q : Procedure}
    (hq : r.get? name = some q) (comments : Bool) :
    ∃ p ∈ r.extract comments, p.name = name ∧ p.part = q.part ∧ p.body = q.body := by
  have hentry := Table.mem_of_get? hq
  refine ⟨_, List.mem_map_of_mem hentry, ?_⟩
  cases comments <;> exact ⟨(h.named _ hentry).symm, rfl, rfl⟩

end Registry
end CellPack
