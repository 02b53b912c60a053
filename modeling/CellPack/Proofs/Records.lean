import Mathlib
import CellPack.Proofs.Parsers
/-!
# Reading records

A parser makes a record of the fields that its instructions have read. Fields of distinct names are
all found, whatever order they were read in (`takeFields_eq`), so a program reads back the record
whose fields its instructions read back (`reads_loadRecord`).
-/

namespace CellPack

open Step

namespace Machine

/-! ## Fields that were read -/

theorem swapRemove_perm {α : Type} (before behind : List α) (a : α) :
    (before ++ a :: behind).Perm (a :: swapRemove (before ++ a :: behind) before.length) := by
  rcases List.eq_nil_or_concat' behind with rfl | ⟨middle, last, rfl⟩
  · have hlast : (before ++ [a]).getLast? = some a := List.getLast?_concat
    have hswap : swapRemove (before ++ [a]) before.length = before := by
      rw [swapRemove, hlast]
      simp only [set_middle rfl, List.dropLast_concat]
    rw [hswap]
    exact List.perm_append_singleton a before
  · have hlast : (before ++ a :: (middle ++ [last])).getLast? = some last := by
      rw [← List.cons_append, ← List.append_assoc, List.getLast?_concat]
    have hswap : swapRemove (before ++ a :: (middle ++ [last])) before.length =
        before ++ last :: middle := by
      rw [swapRemove, hlast]
      simp only [set_middle rfl]
      rw [← List.cons_append, ← List.append_assoc, List.dropLast_concat]
    rw [hswap]
    refine List.perm_middle.trans (.cons a (.append_left before ?_))
    exact List.perm_append_singleton last middle

theorem lookup_perm {α : Type} {l l' : List (String × α)} (h : l.Perm l')
    (hl : (l.map (·.1)).Nodup) (name : String) : l.lookup name = l'.lookup name := by
  have hl' : (l'.map (·.1)).Nodup := (h.map _).nodup_iff.1 hl
  cases hname : l.lookup name with
  | some a => exact (lookup_of_mem hl' (h.subset (mem_of_lookup hname))).symm
  | none =>
    cases hname' : l'.lookup name with
    | none => rfl
    | some a =>
      have := lookup_of_mem hl (h.symm.subset (mem_of_lookup hname'))
      rw [hname] at this
      cases this

/--
The first field of a name is taken. The last one takes its place, so only the order of the others
changes.
-/
theorem takeFields_cons (typeName : String) {name : String} (names : List String)
    {loaded : List (String × Value)} {v : Value} (h : loaded.lookup name = some v) :
    ∃ left, loaded.Perm ((name, v) :: left)
      ∧ takeFields typeName (name :: names) loaded =
        ((name, v) :: ·) <$> takeFields typeName names left := by
  obtain ⟨before, behind, rfl, hbefore⟩ := List.lookup_eq_some_iff.1 h
  have hidx : (before ++ (name, v) :: behind).findIdx? (·.1 = name) = some before.length := by
    have hnone : before.findIdx? (·.1 = name) = none := by
      rw [List.findIdx?_eq_none_iff]
      intro f hf
      have := hbefore f hf
      simp only [bne_iff_ne, ne_eq] at this
      simpa using Ne.symm this
    rw [List.findIdx?_append, hnone, List.findIdx?_cons]
    simp
  refine ⟨_, swapRemove_perm before behind (name, v), ?_⟩
  rw [takeFields, hidx, h]

/-- Fields of distinct names are taken in the order of the names. -/
theorem takeFields_eq (typeName : String) (names : List String) :
    ∀ loaded : List (String × Value), (loaded.map (·.1)).Nodup → names.Nodup →
      (∀ name ∈ names, name ∈ loaded.map (·.1)) →
      takeFields typeName names loaded = .ok (Value.pick names loaded) := by
  induction names with
  | nil => exact fun _ _ _ _ => rfl
  | cons name names ih =>
    intro loaded hloaded hnames hmem
    rw [List.nodup_cons] at hnames
    obtain ⟨v, hv⟩ := exists_lookup (hmem name List.mem_cons_self)
    obtain ⟨left, hperm, htake⟩ := takeFields_cons typeName names hv
    have hleft : (((name, v) :: left).map (·.1)).Nodup := (hperm.map _).nodup_iff.1 hloaded
    rw [List.map_cons, List.nodup_cons] at hleft
    have hne : ∀ other ∈ names, other ≠ name := fun other ho he => hnames.1 (he ▸ ho)
    have hmem' : ∀ other ∈ names, other ∈ left.map (·.1) := by
      intro other ho
      have := (hperm.map (·.1)).subset (hmem other (List.mem_cons_of_mem _ ho))
      exact (List.mem_cons.1 this).resolve_left (hne other ho)
    have hpick : Value.pick names left = Value.pick names loaded := by
      refine List.filterMap_congr fun other ho => ?_
      rw [lookup_perm hperm hloaded other, List.lookup_cons, beq_eq_false_iff_ne.2 (hne other ho)]
    have hhead : Value.pick (name :: names) loaded = (name, v) :: Value.pick names loaded := by
      simp only [Value.pick, List.filterMap_cons, hv, Option.map_some]
    rw [htake, ih left hleft.2 hnames.2 hmem', hhead, ← hpick]
    rfl

/-- Exactly the fields of a record, in their order. -/
theorem takeFields_self (typeName : String) {loaded : List (String × Value)}
    (h : (loaded.map (·.1)).Nodup) :
    takeFields typeName (loaded.map (·.1)) loaded = .ok loaded := by
  rw [takeFields_eq typeName _ loaded h h fun _ h => h, Value.pick_self h]

/-- If fields are not found, it is for one that is missing. -/
theorem failsWith_takeFields (typeName : String) (names : List String) :
    ∀ loaded, FailsWith (fun e => ∃ name ∈ names, e = .missingField typeName name)
      (takeFields typeName names loaded) := by
  induction names with
  | nil => exact fun _ => failsWith_ok []
  | cons name names ih =>
    intro loaded
    unfold takeFields
    split
    · refine FailsWith.map ((ih _).mono ?_)
      rintro e ⟨other, hother, rfl⟩
      exact ⟨other, List.mem_cons_of_mem _ hother, rfl⟩
    · exact failsWith_error ⟨name, List.mem_cons_self, rfl⟩

/-! ## Programs -/

/-- Reads a record with its program. The first argument bounds how deep programs are nested. -/
def loadRecord (set : ProgramSet) (limits : Limits) (depth : Nat) (name : String) (s : Slice) :
    Run (Value × Slice) := do
  let (p, r, rest) ← loadProgram set limits depth name s
  let v ← toRecord p r
  return (v, rest)

variable {set : ProgramSet} {limits : Limits} {depth : Nat} {name : String} {p q : Program}

theorem run_storeProgram (h : set.lookup false name = .ok p) (b : Builder) (v : Value) (n : Nat) :
    (storeProgram set limits (depth + 1) name b v).run n =
      (storeAll (storeProgram set limits depth) limits p v p.instrs [b] >>= fun builders =>
        pure (builders.headD {}) : Run Builder).run n := by
  unfold storeProgram
  rw [h]
  rfl

theorem run_loadProgram (h : set.lookup true name = .ok p) (s : Slice) (n : Nat) :
    (loadProgram set limits (depth + 1) name s).run n =
      (loadAll (loadRecord set limits depth) limits p p.instrs { slices := [s] } >>= fun r =>
        pure (p, r, r.slices.headD s) : Run (Program × Reading × Slice)).run n := by
  unfold loadProgram
  rw [h]
  rfl

theorem run_storeProgram_error {e : RuntimeError} (h : set.lookup false name = .error e)
    (b : Builder) (v : Value) (n : Nat) :
    (storeProgram set limits depth name b v).run n = (.error e, n) := by
  unfold storeProgram
  rw [h]
  rfl

/-- A program that exists and may not be nested any deeper. -/
theorem run_storeProgram_zero (h : set.lookup false name = .ok p) (b : Builder) (v : Value)
    (n : Nat) :
    (storeProgram set limits 0 name b v).run n = (.error (.nestedTooDeep limits.depth), n) := by
  unfold storeProgram
  rw [h]
  rfl

/-- Makes the record of a program, with what is left of its first slice. -/
def finish (p : Program) (s : Slice) (r : Reading) : Run (Value × Slice) := do
  let v ← toRecord p r
  return (v, r.slices.headD s)

theorem run_loadRecord_succ (h : set.lookup true name = .ok p) (s : Slice) (n : Nat) :
    (loadRecord set limits (depth + 1) name s).run n =
      (loadAll (loadRecord set limits depth) limits p p.instrs { slices := [s] } >>=
        finish p s).run n := by
  rw [loadRecord, run_bind, run_loadProgram h, run_bind, run_bind]
  rcases (loadAll (loadRecord set limits depth) limits p p.instrs { slices := [s] }).run n with
    ⟨e | r, n'⟩ <;> rfl

theorem run_loadRecord_zero (h : set.lookup true name = .ok p) (s : Slice) (n : Nat) :
    (loadRecord set limits 0 name s).run n = (.error (.nestedTooDeep limits.depth), n) := by
  unfold loadRecord loadProgram
  rw [h]
  rfl

theorem ends_loadRecord_zero (h : set.lookup true name = .ok p) (s : Slice) (n : Nat)
    {ok : Value × Slice → Nat → Prop} :
    Ends (loadRecord set limits 0 name s) n ok fun e _ => Rejects e :=
  .of_error (run_loadRecord_zero h s n) (.inl rfl)

theorem toRecord_eq {fields : List (String × Value)} {slices : List Slice}
    (hnames : fields.map (·.1) = p.fields) (hdistinct : p.fields.Nodup) :
    toRecord p ⟨slices, fields⟩ = .ok (.record fields) := by
  rw [toRecord, ← hnames, takeFields_self _ (hnames ▸ hdistinct)]
  rfl

/-- Fields of the names in the program make its record. -/
theorem finish_eq {slices : List Slice} {fields : List (String × Value)}
    (hnames : fields.map (·.1) = p.fields) (hdistinct : p.fields.Nodup) (s : Slice) :
    finish p s ⟨slices, fields⟩ = pure (.record fields, slices.headD s) := by
  unfold finish
  rw [toRecord_eq hnames hdistinct]
  rfl

/-- A program whose instructions have read exactly its fields makes a record of them. -/
theorem run_loadRecord (h : set.lookup true name = .ok p) {s rest : Slice} {behind : List Slice}
    {fields : List (String × Value)} {n n' : Nat}
    (hrun : (loadAll (loadRecord set limits depth) limits p p.instrs { slices := [s] }).run n =
      (.ok ⟨rest :: behind, fields⟩, n'))
    (hnames : fields.map (·.1) = p.fields) (hdistinct : p.fields.Nodup) :
    (loadRecord set limits (depth + 1) name s).run n = (.ok (.record fields, rest), n') := by
  rw [run_loadRecord_succ h, run_bind_ok hrun, finish_eq hnames hdistinct]
  rfl

/-- A program whose instructions read a piece back reads the record in it back. -/
theorem reads_loadRecord (h : set.lookup true name = .ok p) {opened k : Nat} {e : Builder}
    {fields : List (String × Value)}
    (hreads : ReadsAll (loadRecord set limits depth) limits p p.instrs 0 opened e k fields)
    (hnames : fields.map (·.1) = p.fields) (hdistinct : p.fields.Nodup) :
    Run.Reads (loadRecord set limits (depth + 1) name) e k (.record fields) := by
  obtain ⟨used, hused, hl⟩ := hreads
  refine ⟨used, hused, fun rest n hn => ?_⟩
  obtain ⟨behind, -, hrun⟩ := hl [] rest [] n rfl hn
  exact run_loadRecord h hrun hnames hdistinct

/-- A program whose instructions read fields of its names reads a record of them. -/
theorem ends_loadRecord (h : set.lookup true name = .ok p) {opened : Nat}
    {P : String × Value → Prop}
    (hloads : LoadsAll (loadRecord set limits depth) limits p P p.instrs 0 opened p.fields)
    (hdistinct : p.fields.Nodup) (s : Slice) (n : Nat) :
    Ends (loadRecord set limits (depth + 1) name s) n
      (fun r _ => ∃ fields, r.1 = .record fields ∧ fields.map (·.1) = p.fields ∧ ∀ f ∈ fields, P f)
      fun e _ => Rejects e := by
  rw [Ends, run_loadRecord_succ h]
  refine (hloads { slices := [s] } n rfl).bind ?_
  rintro ⟨slices, loaded⟩ n' ⟨-, fields, hloaded, hnames, hall⟩
  obtain rfl : loaded = fields := hloaded
  rw [finish_eq hnames hdistinct]
  exact ends_pure ⟨loaded, rfl, hnames, hall⟩

end Machine
end CellPack
