import Mathlib
import CellPack.TypeStore.Json
/-!
# Readable JSON and the slots of records

A value is readable to a depth that its brackets do not exceed. It is legible if some depth is enough
(`Json.Legible`), as everything is that is made of legible parts. A record that is written from slots
under different keys has these slots again when its keys are looked up (`Json.record?_present`), the
absent ones included.
-/

namespace CellPack.Json

/-! ## Readable values -/

theorem readableItems_iff {d : Nat} {items : List Json} :
    readableItems d items = true ↔ ∀ item ∈ items, item.readable d = true := by
  induction items with
  | nil => simp [readableItems]
  | cons item items ih => simp [readableItems, ih]

theorem readableEntries_iff {d : Nat} {entries : List (String × Json)} :
    readableEntries d entries = true ↔ ∀ entry ∈ entries, entry.2.readable d = true := by
  induction entries with
  | nil => simp [readableEntries]
  | cons entry entries ih => simp [readableEntries, ih]

theorem readable_arr {d : Nat} {items : List Json} :
    (arr items).readable d = true ↔ ∃ n, d = n + 1 ∧ ∀ item ∈ items, item.readable n = true := by
  cases d with
  | zero => simp [readable]
  | succ n => simp [readable, readableItems_iff]

theorem readable_obj {d : Nat} {entries : List (String × Json)} :
    (obj entries).readable d = true
      ↔ ∃ n, d = n + 1 ∧ ∀ entry ∈ entries, entry.2.readable n = true := by
  cases d with
  | zero => simp [readable]
  | succ n => simp [readable, readableEntries_iff]

theorem readable_present {d : Nat} {entries : List (String × Option Json)} :
    (present entries).readable d = true
      ↔ ∃ n, d = n + 1 ∧ ∀ entry ∈ entries, ∀ j ∈ entry.2, j.readable n = true := by
  unfold present
  rw [readable_obj]
  constructor
  · rintro ⟨n, rfl, h⟩
    refine ⟨n, rfl, fun entry hentry j hj => h (entry.1, j) ?_⟩
    exact List.mem_filterMap.2 ⟨entry, hentry, Option.map_eq_some_iff.2 ⟨j, hj, rfl⟩⟩
  · rintro ⟨n, rfl, h⟩
    refine ⟨n, rfl, fun entry hentry => ?_⟩
    obtain ⟨slot, hslot, hpresent⟩ := List.mem_filterMap.1 hentry
    obtain ⟨j, hj, rfl⟩ := Option.map_eq_some_iff.1 hpresent
    exact h slot hslot j hj

/-- Some nesting is deep enough for the value. -/
def Legible (j : Json) : Prop := ∃ depth, ∀ d, depth ≤ d → j.readable d = true

theorem legible_bool (b : Bool) : (bool b).Legible := ⟨0, fun d _ => by cases d <;> rfl⟩

theorem legible_int (v : Int) : (int v).Legible := ⟨0, fun d _ => by cases d <;> rfl⟩

theorem legible_str (s : String) : (str s).Legible := ⟨0, fun d _ => by cases d <;> rfl⟩

theorem exists_depth {js : List Json} (h : ∀ j ∈ js, j.Legible) :
    ∃ depth, ∀ d, depth ≤ d → ∀ j ∈ js, j.readable d = true := by
  induction js with
  | nil => exact ⟨0, fun _ _ _ hj => absurd hj List.not_mem_nil⟩
  | cons j js ih =>
    obtain ⟨hj, hjs⟩ := List.forall_mem_cons.1 h
    obtain ⟨m, hm⟩ := hj
    obtain ⟨n, hn⟩ := ih hjs
    refine ⟨max m n, fun d hd => List.forall_mem_cons.2 ⟨hm d ?_, hn d ?_⟩⟩
    · exact (le_max_left m n).trans hd
    · exact (le_max_right m n).trans hd

theorem legible_arr {items : List Json} (h : ∀ item ∈ items, item.Legible) :
    (arr items).Legible := by
  obtain ⟨depth, hdepth⟩ := exists_depth h
  refine ⟨depth + 1, fun d hd => readable_arr.2 ?_⟩
  obtain ⟨n, rfl⟩ : ∃ n, d = n + 1 := ⟨d - 1, by omega⟩
  exact ⟨n, rfl, hdepth n (Nat.le_of_succ_le_succ hd)⟩

theorem legible_obj {entries : List (String × Json)} (h : ∀ entry ∈ entries, entry.2.Legible) :
    (obj entries).Legible := by
  have hvalues : ∀ j ∈ entries.map (·.2), j.Legible := List.forall_mem_map.2 h
  obtain ⟨depth, hdepth⟩ := exists_depth hvalues
  refine ⟨depth + 1, fun d hd => readable_obj.2 ?_⟩
  obtain ⟨n, rfl⟩ : ∃ n, d = n + 1 := ⟨d - 1, by omega⟩
  exact ⟨n, rfl, List.forall_mem_map.1 (hdepth n (Nat.le_of_succ_le_succ hd))⟩

theorem legible_map {α : Type} {encode : α → Json} {o : Option α}
    (h : ∀ a ∈ o, (encode a).Legible) : ∀ j ∈ o.map encode, j.Legible := by
  intro j hj
  obtain ⟨a, ha, rfl⟩ := Option.map_eq_some_iff.1 hj
  exact h a ha

theorem legible_present {entries : List (String × Option Json)}
    (h : ∀ entry ∈ entries, ∀ j ∈ entry.2, j.Legible) : (present entries).Legible := by
  refine legible_obj fun entry hentry => ?_
  obtain ⟨slot, hslot, hpresent⟩ := List.mem_filterMap.1 hentry
  obtain ⟨j, hj, rfl⟩ := Option.map_eq_some_iff.1 hpresent
  exact h slot hslot j hj

/-! ## Slots of records -/

/-- The entries of an object that are present. -/
def given (entries : List (String × Option Json)) : List (String × Json) :=
  entries.filterMap fun (key, value) => value.map (key, ·)

theorem valuesOf_given_cons (key : String) (entry : String × Option Json)
    (entries : List (String × Option Json)) :
    valuesOf key (given (entry :: entries))
      = (if entry.1 = key then entry.2.toList else []) ++ valuesOf key (given entries) := by
  rcases entry with ⟨k, _ | j⟩
  · simp [valuesOf, given]
  · by_cases hk : k = key <;> simp [valuesOf, given, hk]

theorem valuesOf_given_of_notMem {entries : List (String × Option Json)} {key : String}
    (h : key ∉ entries.map (·.1)) : valuesOf key (given entries) = [] := by
  induction entries with
  | nil => rfl
  | cons entry entries ih =>
    obtain ⟨hne, hrest⟩ := not_or.1 (mt List.mem_cons.2 h)
    rw [valuesOf_given_cons, if_neg (Ne.symm hne), ih hrest]
    rfl

theorem valuesOf_given {entries : List (String × Option Json)} (hkeys : (entries.map (·.1)).Nodup)
    {entry : String × Option Json} (h : entry ∈ entries) :
    valuesOf entry.1 (given entries) = entry.2.toList := by
  induction entries with
  | nil => exact absurd h List.not_mem_nil
  | cons first entries ih =>
    obtain ⟨hnew, hrest⟩ := List.nodup_cons.1 hkeys
    rw [valuesOf_given_cons]
    rcases List.mem_cons.1 h with rfl | hmem
    · rw [if_pos rfl, valuesOf_given_of_notMem hnew, List.append_nil]
    · have hkey : entry.1 ∈ entries.map (·.1) := List.mem_map_of_mem hmem
      have hne : first.1 ≠ entry.1 := (ne_of_mem_of_not_mem hkey hnew).symm
      rw [if_neg hne, ih hrest hmem]
      rfl

theorem mapM_map_eq_some {α β γ : Type} {f : α → Option β} {g : γ → α} {h : γ → β} {xs : List γ}
    (hall : ∀ x ∈ xs, f (g x) = some (h x)) : (xs.map g).mapM f = some (xs.map h) := by
  induction xs with
  | nil => rfl
  | cons x xs ih =>
    obtain ⟨hx, hxs⟩ := List.forall_mem_cons.1 hall
    rw [List.map_cons, List.mapM_cons, hx, ih hxs]
    rfl

/-- A record whose keys differ has the slots that it is written from. -/
theorem record?_present {entries : List (String × Option Json)}
    (hkeys : (entries.map (·.1)).Nodup) :
    record? (entries.map (·.1)) (present entries) = some (entries.map (·.2)) := by
  refine mapM_map_eq_some fun entry hentry => ?_
  have hvalues : valuesOf entry.1 (given entries) = entry.2.toList := valuesOf_given hkeys hentry
  unfold single?
  rw [← given, hvalues]
  cases entry.2 <;> rfl

variable {α : Type} {decode : Json → Option α} {encode : α → Json} {f : α → α}

theorem defaulting?_some {default : α} (j : Json) :
    defaulting? decode default (some j) = decode j := rfl

theorem nullable?_encode {a : α} (hnull : ∀ a, encode a ≠ .null)
    (h : decode (encode a) = some (f a)) : nullable? decode (encode a) = some (some (f a)) := by
  have hne := hnull a
  unfold nullable?
  split
  · contradiction
  · rw [h]
    rfl

theorem optional_encode {o : Option α} (hnull : ∀ a, encode a ≠ .null)
    (h : ∀ a ∈ o, decode (encode a) = some (f a)) :
    defaulting? (nullable? decode) none (o.map encode) = some (o.map f) := by
  cases o with
  | none => rfl
  | some a => exact nullable?_encode hnull (h a rfl)

theorem nestedList?_encode {decode : Nat → Json → Option α} {d : Nat} {xs : List α}
    (hread : (arr (xs.map encode)).readable d = true)
    (h : ∀ x ∈ xs, ∀ {n}, (encode x).readable n = true → decode n (encode x) = some (f x)) :
    nestedList? decode d (.arr (xs.map encode)) = some (xs.map f) := by
  obtain ⟨n, rfl, hitems⟩ := readable_arr.1 hread
  exact mapM_map_eq_some fun x hx => h x hx (hitems _ (List.mem_map_of_mem hx))

end CellPack.Json
