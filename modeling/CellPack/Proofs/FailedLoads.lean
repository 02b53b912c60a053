import Mathlib
import CellPack.Proofs.Registration
/-!
# Failed loads

A parser moves the slice of the caller on when all its instructions have run, and collects the
fields of the record after that. So a failed load leaves the slice where it was if the instructions
give all fields, and only then for sure (`Machine.load_failed`). The parsers of a compiled store
give all of theirs (`Artifact.slice_of_load_error`).
-/

namespace CellPack

open Step

/-! ## Collecting fields -/

namespace Machine

/-- Fields are collected if as many of each name were read as are asked for. -/
theorem exists_takeFields_iff (typeName : String) (names : List String) :
    ∀ loaded : List (String × Value), (∃ fields, takeFields typeName names loaded = .ok fields) ↔
      names.Subperm (loaded.map (·.1)) := by
  induction names with
  | nil => exact fun loaded => ⟨fun _ => List.nil_subperm, fun _ => ⟨[], rfl⟩⟩
  | cons name names ih =>
    intro loaded
    cases hv : loaded.lookup name with
    | none =>
      have hmissing : name ∉ loaded.map (·.1) := fun hmem => by
        obtain ⟨v, hv'⟩ := exists_lookup hmem
        rw [hv] at hv'
        cases hv'
      constructor
      · rintro ⟨fields, hfields⟩
        rw [takeFields, hv] at hfields
        split at hfields
        · next h => cases h
        · cases hfields
      · exact fun h => absurd (h.subset List.mem_cons_self) hmissing
    | some v =>
      obtain ⟨left, hperm, htake⟩ := takeFields_cons typeName names hv
      have hnames : (name :: names).Subperm (loaded.map (·.1)) ↔ names.Subperm (left.map (·.1)) := by
        rw [(hperm.map (·.1)).subperm_left, List.map_cons, List.subperm_cons]
      rw [hnames, ← ih left, htake]
      constructor
      · rintro ⟨fields, hfields⟩
        obtain ⟨rest, hrest, -⟩ := map_eq_ok hfields
        exact ⟨rest, hrest⟩
      · rintro ⟨rest, hrest⟩
        exact ⟨(name, v) :: rest, by rw [hrest]; rfl⟩

end Machine

/-! ## What instructions give -/

/-- The field that an instruction of a parser gives. -/
def Instr.given? : Instr → Option String
  | load _ field _ => some field
  | setDefault field _ => some field
  | _ => none

/-- The number of slices that an instruction of a parser opens. -/
def Instr.opens : Instr → Nat
  | openCell _ _ => 1
  | _ => 0

/-- The fields that the instructions of a parser give, in order. -/
def Program.given (p : Program) : List String := p.instrs.filterMap Instr.given?

namespace Machine

variable {call : String → Slice → Run (Value × Slice)} {limits : Limits} {p : Program}

/-- An instruction that has run has given its field and opened its slice. -/
theorem ends_loadInstr (r : Reading) (i : Instr) (n : Nat) :
    Ends (loadInstr call p r i) n
      (fun r' _ => r'.loaded.map (·.1) = r.loaded.map (·.1) ++ i.given?.toList
        ∧ r'.slices.length = r.slices.length + i.opens)
      fun _ _ => True := by
  cases i with
  | checkHeader cell expected =>
    refine ends_bind_any fun s n' => ends_bind_any fun x n' => ?_
    simp only
    split
    · exact ends_throw trivial
    · exact ends_pure ⟨(List.append_nil _).symm, List.length_set⟩
  | openCell parent child =>
    simp only [loadInstr]
    split
    · exact ends_throw trivial
    · refine ends_bind_any fun s n' => ends_bind_any fun x n' => ?_
      exact ends_pure ⟨(List.append_nil _).symm, by simp [Instr.opens]⟩
  | load cell field op =>
    refine ends_bind_any fun s n' => ends_bind_any fun x n' => ends_pure ⟨?_, List.length_set⟩
    simp [Instr.given?]
  | setDefault field value => exact ends_pure ⟨by simp [Instr.given?], rfl⟩
  | _ => exact ends_throw trivial

/-- So has one that was counted. -/
theorem ends_counted (r : Reading) (i : Instr) (n : Nat) :
    Ends (Run.step limits >>= fun _ => loadInstr call p r i) n
      (fun r' _ => r'.loaded.map (·.1) = r.loaded.map (·.1) ++ i.given?.toList
        ∧ r'.slices.length = r.slices.length + i.opens)
      fun _ _ => True := ends_bind_any fun _ n' => ends_loadInstr r i n'

/-- Instructions that have all run have given their fields, and closed no slice. -/
theorem ends_loadAll (is : List Instr) : ∀ (r : Reading) (n : Nat),
    Ends (loadAll call limits p is r) n
      (fun r' _ => r'.loaded.map (·.1) = r.loaded.map (·.1) ++ is.filterMap Instr.given?
        ∧ r.slices.length ≤ r'.slices.length)
      fun _ _ => True := by
  induction is with
  | nil => exact fun r n => ends_pure ⟨(List.append_nil _).symm, le_refl _⟩
  | cons i is ih =>
    intro r n
    refine (ends_counted r i n).bind fun r' n' ⟨hloaded, hslices⟩ => ?_
    refine (ih r' n').mono (fun r'' n'' ⟨hloaded', hslices'⟩ => ⟨?_, by omega⟩) fun _ _ h => h
    rw [hloaded', hloaded, List.append_assoc]
    cases hi : i.given? <;> simp [hi]

variable {set : ProgramSet} {depth : Nat} {name : String}

/-- All instructions of a program that has run have given their fields. -/
theorem given_of_loadProgram {s rest : Slice} {n n' : Nat} {r : Reading}
    (h : (loadProgram set limits depth name s).run n = (.ok (p, r, rest), n')) :
    set.lookup true name = .ok p ∧ r.loaded.map (·.1) = p.given := by
  cases hlookup : set.lookup true name with
  | error e =>
    unfold loadProgram at h
    rw [hlookup] at h
    cases h
  | ok q =>
    cases depth with
    | zero =>
      unfold loadProgram at h
      rw [hlookup] at h
      cases h
    | succ depth =>
      rw [run_loadProgram hlookup] at h
      obtain ⟨r', m, hall, hlast⟩ := exists_of_run_bind h
      cases hlast
      exact ⟨rfl, ((ends_loadAll p.instrs { slices := [s] } n).ok_of_run hall).1⟩

/-! ## Failed loads -/

variable {m : Machine} {s s' : Slice} {e : RuntimeError}

/--
Either the slice has not moved, or all instructions have run, left it where it is, and do not give
all fields.
-/
theorem load_error_cases (h : (m.load name).run s = (.error e, s')) :
    s' = s ∨ ∃ p r n, m.programs.lookup true name = .ok p ∧ ¬p.fields.Subperm p.given
      ∧ (loadProgram m.programs m.limits m.limits.depth name s).run m.limits.steps =
        (.ok (p, r, s'), n)
      ∧ ∃ field ∈ p.fields, e = .missingField p.typeName field := by
  rw [run_load] at h
  rcases hrun : (loadProgram m.programs m.limits m.limits.depth name s).run m.limits.steps with
    ⟨e' | ⟨p, r, rest⟩, n⟩
  · rw [hrun] at h
    cases h
    exact .inl rfl
  · rw [hrun] at h
    obtain ⟨hrecord, rfl⟩ := Prod.mk.inj h
    obtain ⟨hp, hgiven⟩ := given_of_loadProgram hrun
    have htake : takeFields p.typeName p.fields r.loaded = .error e := map_eq_error hrecord
    refine .inr ⟨p, r, n, hp, ?_, rfl, failsWith_takeFields _ _ _ e htake⟩
    rw [← hgiven, ← exists_takeFields_iff p.typeName, htake]
    rintro ⟨fields, ⟨⟩⟩

/-- Of a program that gives all its fields, no failed load moves the slice. -/
theorem slice_of_given {p : Program} (hp : m.programs.lookup true name = .ok p)
    (hgiven : p.fields.Subperm p.given) (h : (m.load name).run s = (.error e, s')) : s' = s := by
  rcases load_error_cases h with rfl | ⟨q, -, -, hq, hlacks, -⟩
  · rfl
  · obtain rfl : p = q := Except.ok.inj (hp.symm.trans hq)
    exact absurd hgiven hlacks

/--
A load that fails leaves the slice where it was if the instructions of the program give all its
fields. If the slice has moved, all instructions have run and left it there, and one of the fields
that they do not give was missing.
-/
theorem load_failed (h : (m.load name).run s = (.error e, s')) :
    (∀ p, m.programs.lookup true name = .ok p → p.fields.Subperm p.given → s' = s)
      ∧ (s' ≠ s → ∃ p r n, m.programs.lookup true name = .ok p ∧ ¬p.fields.Subperm p.given
        ∧ (loadProgram m.programs m.limits m.limits.depth name s).run m.limits.steps =
          (.ok (p, r, s'), n)
        ∧ ∃ field ∈ p.fields, e = .missingField p.typeName field) :=
  ⟨fun _ hp hgiven => slice_of_given hp hgiven h, (load_error_cases h).resolve_left⟩

/-- A parser that reads one of its two fields. -/
def sampleGap : Program where
  name := ProcName.load "Pair"
  typeName := "Pair"
  kind := .parser
  fields := ["x", "y"]
  instrs := [.load 0 "x" (.int (.uint 8))]

theorem run_sampleGap : ((⟨.ofList [sampleGap], {}⟩ : Machine).load (ProcName.load "Pair")).run
    ⟨List.replicate 16 true, []⟩ =
      (.error (.missingField "Pair" "y"), ⟨List.replicate 8 true, []⟩) := by
  have hrun : (match ((⟨.ofList [sampleGap], {}⟩ : Machine).load (ProcName.load "Pair")).run
      ⟨List.replicate 16 true, []⟩ with
    | (.error e, s) => decide (e = .missingField "Pair" "y" ∧ s = ⟨List.replicate 8 true, []⟩)
    | (.ok _, _) => false) = true := by decide +kernel
  split at hrun
  · next e s h =>
    obtain ⟨rfl, rfl⟩ := of_decide_eq_true hrun
    exact h
  · cases hrun

theorem load_failed_sample : ∃ s s', s' ≠ s
    ∧ ((⟨.ofList [sampleGap], {}⟩ : Machine).load (ProcName.load "Pair")).run s =
      (.error (.missingField "Pair" "y"), s')
    ∧ ∃ p, (ProgramSet.ofList [sampleGap]).lookup true (ProcName.load "Pair") = .ok p
      ∧ ¬p.fields.Subperm p.given := by
  have hmoved : (⟨List.replicate 8 true, []⟩ : Slice) ≠ ⟨List.replicate 16 true, []⟩ := by decide
  obtain ⟨p, -, -, hp, hlacks, -⟩ := (load_failed run_sampleGap).2 hmoved
  exact ⟨_, _, hmoved, run_sampleGap, p, hp, hlacks⟩

/-- Not every failed load leaves the slice where it was. -/
theorem load_failed_cut : ¬∀ (m : Machine) (name : String) (p : Program),
    m.programs.lookup true name = .ok p → ∀ (s s' : Slice) (e : RuntimeError),
      (m.load name).run s = (.error e, s') → s' = s := by
  intro h
  have hlookup : (ProgramSet.ofList [sampleGap]).lookup true (ProcName.load "Pair") =
      .ok sampleGap := by decide
  exact absurd (h ⟨.ofList [sampleGap], {}⟩ _ sampleGap hlookup _ _ _ run_sampleGap) (by decide)

end Machine

/-! ## Compiled stores -/

theorem Layout.given_loadCells (cells : List LayoutCell) : ∀ index,
    (Layout.loadCells index cells).filterMap Instr.given? =
      (cells.flatMap (·.placements)).map (·.field) := by
  induction cells with
  | nil => exact fun _ => rfl
  | cons c rest ih =>
    intro index
    have hloads : (c.placements.map fun pl => Instr.load index pl.field pl.op).filterMap
        Instr.given? = c.placements.map (·.field) := by
      rw [List.filterMap_map]
      exact congrFun List.filterMap_eq_map' c.placements
    rw [List.flatMap_cons, List.map_append]
    unfold loadCells
    split
    · next hrest =>
      obtain rfl : rest = [] := by simpa using hrest
      rw [hloads]
      exact (List.append_nil _).symm
    · rw [List.filterMap_append, hloads, ← ih (index + 1)]
      rfl

/-- A parser gives the fields that have a place, and then those that have none. -/
theorem Layout.parser_given (l : Layout) (mode : ParserMode) :
    (l.parser mode).given = l.placements.map (·.field) ++ l.omitted.map (·.1) := by
  have hcheck : ((if mode = .noHeader then none else l.header.map (Instr.checkHeader 0)).toList
      |>.filterMap Instr.given?) = [] := by
    split
    · rfl
    · cases l.header <;> rfl
  have homitted : (l.omitted.map fun d => Instr.setDefault d.1 d.2).filterMap Instr.given? =
      l.omitted.map (·.1) := by
    rw [List.filterMap_map]
    exact congrFun List.filterMap_eq_map' l.omitted
  change (_ ++ Layout.loadCells 0 l.cells ++ l.omitted.map fun d => Instr.setDefault d.1 d.2).filterMap
    Instr.given? = _
  rw [List.filterMap_append, List.filterMap_append, hcheck, homitted, given_loadCells]
  rfl

/-- Each field of a computed layout has a place or is left out. -/
theorem LayoutCache.Valid.fields_eq {s : TypeStore} {c : LayoutCache} (hc : Valid s c)
    {id : LayoutId} {l : Layout} (h : c.get? id = some l) :
    l.placements.map (·.field) ++ l.omitted.map (·.1) = l.fields := by
  obtain ⟨t, -, ⟨_, _, -, hl⟩ | ⟨name, full, -, -, hfull, rfl⟩⟩ := hc.filled_or_bounced h
  · rw [hl.names, hl.omitted_eq, hl.fields_eq]
    exact List.append_nil _
  · obtain ⟨first, rest, hcells, hfirst, -⟩ := hfull.fits
    exact (Layout.leadingPart_bounced hcells hfirst id hfull.names).omitted

namespace Artifact

variable {s : TypeStore} {o : CompileOptions} {tools : Toolchain} {art : Artifact}

/-- The parsers of a compiled store give exactly their fields, in order. -/
theorem given_of_lookup (hart : s.compile o tools = .ok art) {name : String} {p : Program}
    (hp : art.programs.lookup true name = .ok p) : p.given = p.fields := by
  obtain ⟨a, link, hanalyze, hprograms⟩ := TypeStore.compile_ok hart
  have ha := TypeStore.analyze_ok hanalyze
  obtain ⟨ls, hls, hgenerated⟩ := (Analysis.generates_procedures ha.identified hanalyze link).programs
  obtain ⟨hkind, hmem⟩ : p.kind ≠ .serializer
      ∧ p ∈ (a.registry link).procedures.filterMap (·.2.program) := by
    unfold ProgramSet.lookup at hp
    rw [hprograms, Registry.programs, ProgramSet.get?_ofList] at hp
    split at hp
    · cases hp
    · next q hq =>
      split at hp
      · next hparser =>
        cases hp
        exact ⟨by simpa using hparser, List.mem_of_find?_eq_some hq⟩
      · cases hp
  obtain ⟨entry, hentry, hprogram⟩ := List.mem_filterMap.1 hmem
  have hprocedure : entry.2 ∈ a.procedures link := Analysis.mem_procedures_of_registered hentry
  have hp : p ∈ ls.flatMap Layout.programs := by
    rw [← hgenerated]
    exact List.mem_filterMap.2 ⟨entry.2, hprocedure, hprogram⟩
  obtain ⟨l, hl, hp⟩ := List.mem_flatMap.1 hp
  obtain ⟨i, hi, rfl⟩ := List.getElem_of_mem hl
  obtain ⟨id, hget⟩ : ∃ id, a.layouts.get? id = some ls[i] := ⟨_, hls.get (hls.length_eq ▸ hi) hi⟩
  have hparser (mode : ParserMode) : (ls[i].parser mode).given = (ls[i].parser mode).fields :=
    (ls[i].parser_given mode).trans (ha.valid.fields_eq hget)
  unfold Layout.programs at hp
  split at hp <;> simp only [List.mem_cons, List.not_mem_nil, or_false] at hp
  · rcases hp with rfl | rfl | rfl
    · exact absurd rfl hkind
    · exact hparser .withHeader
    · exact hparser .noHeader
  · obtain rfl := hp
    exact hparser .bounced
  · rcases hp with rfl | rfl
    · exact absurd rfl hkind
    · exact hparser .withHeader

/-- So a load that fails leaves the slice where it was. -/
theorem slice_of_load_error (hart : s.compile o tools = .ok art) {limits : Limits} {name : String}
    {s s' : Slice} {e : RuntimeError}
    (h : ((art.machine limits).load name).run s = (.error e, s')) : s' = s := by
  rcases Machine.load_error_cases h with rfl | ⟨p, -, -, hp, hlacks, -⟩
  · rfl
  · rw [given_of_lookup hart hp] at hlacks
    exact absurd (List.Subperm.refl _) hlacks

end Artifact
end CellPack
