import Mathlib
import CellPack.Proofs.Analysed
import CellPack.Proofs.Messages
import CellPack.Proofs.Registry
/-!
# Files of an artifact

Each registered procedure goes to exactly one file, and there to the group of its section
(`Analysis.artifact_arranged`). The sections that have a place in a file cover all procedures, and
the file of the code takes by name what no other file has, which is what no record type has.
-/

namespace CellPack

/-! ## Sections of procedures -/

/-- Items sorted by keys that cover them. -/
theorem perm_flatMap_filter {α κ : Type} [DecidableEq κ] {key : α → κ} {items : List α}
    {keys : List κ} (hitems : items.Nodup) (hkeys : keys.Nodup)
    (hcover : ∀ x ∈ items, key x ∈ keys) :
    (keys.flatMap fun k => items.filter (key · = k)).Perm items := by
  refine (List.perm_ext_iff_of_nodup ?_ hitems).2 fun x => ?_
  · refine List.nodup_flatMap.2 ⟨fun k _ => hitems.filter _, ?_⟩
    refine hkeys.imp fun {k k'} hne x hx hx' => ?_
    simp only [List.mem_filter, decide_eq_true_eq] at hx hx'
    exact hne (hx.2.symm.trans hx'.2)
  · simp only [List.mem_flatMap, List.mem_filter, decide_eq_true_eq]
    exact ⟨fun ⟨_, _, hx, _⟩ => hx, fun hx => ⟨key x, hcover x hx, hx, rfl⟩⟩

section
variable {s : TypeStore} {t : RecordType} {p : Procedure} {sec : Section}

theorem part_of_mem_stdlib (h : p ∈ Stdlib.procedures) : p.part = .stdlib := by
  revert p
  decide

theorem part_of_mem_wrappers {type tensor : String} (h : p ∈ wrapperProcedures type tensor sec) :
    p.part = sec := by
  simp only [wrapperProcedures, List.mem_cons, List.not_mem_nil, or_false] at h
  rcases h with rfl | rfl | rfl | rfl <;> rfl

theorem part_of_mem_accessors {type : String} {fields : List Field}
    (h : p ∈ accessorProcedures s type fields sec) : p.part = sec := by
  rcases List.mem_append.1 h with h | h
  · obtain ⟨f, -, rfl⟩ := List.mem_map.1 h
    rfl
  · simp only [List.mem_cons, List.not_mem_nil, or_false] at h
    rcases h with rfl | rfl | rfl <;> rfl

theorem part_of_mem_contract (h : p ∈ s.contractProcedures t) : p.part = .type t.name := by
  simp only [TypeStore.contractProcedures, List.mem_cons, List.not_mem_nil, or_false] at h
  rcases h with rfl | rfl | rfl <;> rfl

theorem part_of_mem_constants (h : p ∈ s.constantProcedures) :
    p.part = .constants ∨ ∃ t ∈ s.types, p.part = .type t.name := by
  rcases List.mem_append.1 h with h | h
  · obtain ⟨c, -, hp⟩ := List.mem_filterMap.1 h
    obtain ⟨v, -, rfl⟩ := Option.map_eq_some_iff.1 hp
    exact .inl rfl
  · obtain ⟨t, ht, h⟩ := List.mem_flatMap.1 h
    obtain ⟨c, -, hp⟩ := List.mem_filterMap.1 h
    obtain ⟨v, -, rfl⟩ := Option.map_eq_some_iff.1 hp
    exact .inr ⟨t, (List.mem_filter.1 ht).1, rfl⟩

end

namespace Analysis

variable {s : TypeStore} {ev : Evaluator} {a : Analysis} {t : RecordType} {p : Procedure}

theorem part_of_mem_full {l : Layout} (h : p ∈ a.fullProcedures t l) : p.part = .type t.name := by
  simp only [fullProcedures, List.mem_cons, List.not_mem_nil, or_false] at h
  rcases h with rfl | rfl | rfl <;> rfl

theorem part_of_mem_bounced (h : p ∈ a.bouncedProcedures t) : p.part = .type t.name := by
  unfold bouncedProcedures at h
  split at h
  · rw [List.mem_singleton.1 h]
    rfl
  · cases h

theorem part_of_mem_init (h : p ∈ a.initProcedures t) : p.part = .typeInit t.name := by
  unfold initProcedures at h
  split at h
  · simp only [List.mem_cons, List.not_mem_nil, or_false] at h
    rcases h with rfl | rfl <;> rfl
  · cases h

/-- The procedures of a record type are in its section or in that of its parameters. -/
theorem part_of_mem_typeProcedures (h : p ∈ a.typeProcedures t) :
    p.part = .type t.name ∨ p.part = .typeInit t.name := by
  unfold typeProcedures at h
  split at h
  · cases h
  · simp only at h
    split at h
    · simp only [List.mem_append, List.mem_singleton] at h
      rcases h with ((h | h) | h) | rfl
      · exact .inl (part_of_mem_full h)
      · exact .inl (part_of_mem_contract h)
      · exact .inr (part_of_mem_init h)
      · exact .inr rfl
    · simp only [List.mem_append] at h
      rcases h with ((h | h) | h) | h
      · exact .inl (part_of_mem_full h)
      · exact .inl (part_of_mem_bounced h)
      · exact .inl (part_of_mem_wrappers h)
      · exact .inl (part_of_mem_accessors h)

/-! ## Sections of files -/

/-- The sections of the record types in the order of the storage file. -/
def storageSections (a : Analysis) : List Section :=
  a.orderedTypes.flatMap fun t => [.type t.name, .typeInit t.name]

theorem mem_storageSections {sec : Section} : sec ∈ a.storageSections ↔
    ∃ t ∈ a.orderedTypes, sec = .type t.name ∨ sec = .typeInit t.name := by
  simp [storageSections]

/-- All sections in the order of the files. -/
def sections (a : Analysis) : List Section :=
  .stdlib :: .constants :: (a.storageSections ++ [.untagged])

theorem nodup_storageSections (h : s.analyze ev = .ok a) : a.storageSections.Nodup := by
  have hnames : (a.orderedTypes.map (·.name)).Nodup := by
    rw [TypeStore.names_orderedTypes h, (TypeStore.order_perm h).nodup_iff]
    exact a.store.types_distinct
  refine List.nodup_flatMap.2 ⟨fun t _ => by simp, ?_⟩
  refine (List.pairwise_map.1 hnames).imp fun {t u} hne sec ht hu => ?_
  simp only [List.mem_cons, List.not_mem_nil, or_false] at ht hu
  rcases ht with rfl | rfl <;> simp [hne] at hu

theorem nodup_sections (h : s.analyze ev = .ok a) : a.sections.Nodup := by
  have hnot : ∀ sec ∈ [Section.stdlib, .constants, .untagged], sec ∉ a.storageSections := by
    intro sec hsec hmem
    obtain ⟨t, -, rfl | rfl⟩ := mem_storageSections.1 hmem <;> simp at hsec
  have hnodup : (a.storageSections ++ [Section.untagged]).Nodup := by
    refine (nodup_storageSections h).append (List.nodup_singleton _) ?_
    exact List.disjoint_singleton.2 (hnot _ (by simp))
  refine List.nodup_cons.2 ⟨?_, List.nodup_cons.2 ⟨?_, hnodup⟩⟩
  · simp [hnot .stdlib (by simp)]
  · simp [hnot .constants (by simp)]

theorem part_mem_sections (h : s.analyze ev = .ok a) {link : String} (hp : p ∈ a.procedures link) :
    p.part ∈ a.sections := by
  have hstorage {t : RecordType} (ht : t ∈ a.orderedTypes)
      (hpart : p.part = .type t.name ∨ p.part = .typeInit t.name) : p.part ∈ a.sections := by
    refine List.mem_cons_of_mem _ (List.mem_cons_of_mem _ (List.mem_append_left _ ?_))
    exact mem_storageSections.2 ⟨t, ht, hpart⟩
  simp only [procedures, List.mem_append, List.mem_singleton] at hp
  rcases hp with ((hp | hp) | hp) | rfl
  · rw [part_of_mem_stdlib hp]
    simp [sections]
  · rcases part_of_mem_constants hp with hpart | ⟨t, ht, hpart⟩
    · rw [hpart]
      simp [sections]
    · exact hstorage ((TypeStore.orderedTypes_perm h).symm.subset ht) (.inl hpart)
  · obtain ⟨t, ht, hp⟩ := List.mem_flatMap.1 hp
    exact hstorage (List.mem_filter.1 ht).1 (part_of_mem_typeProcedures hp)
  · simp [sections, linkProcedure]

/-! ## Groups of procedures -/

section
variable {ps : List Procedure}

theorem flatMap_storageGroups (a : Analysis) (ps : List Procedure) :
    (a.storageGroups ps).flatMap (·.2) = a.storageSections.flatMap (inSection ps) := by
  -- groups without procedures are left out, and add none
  have hfilter : ∀ groups : List (RecordType × List Procedure),
      (groups.filter (!·.2.isEmpty)).flatMap (·.2) = groups.flatMap (·.2) := by
    intro groups
    induction groups with
    | nil => rfl
    | cons group groups ih => cases hgroup : group.2 <;> simp [hgroup, ih]
  rw [storageGroups, hfilter, storageSections, List.flatMap_map, List.flatMap_assoc]
  simp [storageGroup]

theorem placed_eq (a : Analysis) (ps : List Procedure) :
    a.placed ps = (.stdlib :: .constants :: a.storageSections).flatMap (inSection ps) := by
  rw [placed, flatMap_storageGroups]
  simp

theorem mem_placed (h : s.analyze ev = .ok a) (hcover : ∀ p ∈ ps, p.part ∈ a.sections) :
    p ∈ a.placed ps ↔ p ∈ ps ∧ p.part ≠ .untagged := by
  have huntagged : Section.untagged ∉ .stdlib :: .constants :: a.storageSections := by
    have hnodup := nodup_sections h
    unfold sections at hnodup
    rw [← List.cons_append, ← List.cons_append] at hnodup
    exact List.disjoint_singleton.1 (List.disjoint_of_nodup_append hnodup)
  rw [placed_eq, List.mem_flatMap]
  simp only [inSection, List.mem_filter, decide_eq_true_eq]
  constructor
  · rintro ⟨sec, hsec, hp, rfl⟩
    exact ⟨hp, fun heq => huntagged (heq ▸ hsec)⟩
  · rintro ⟨hp, hne⟩
    refine ⟨p.part, ?_, hp, rfl⟩
    have hsec := hcover p hp
    simpa [sections, hne] using hsec

/-- What no other file has taken by name is what belongs to no record type. -/
theorem codeGroup_eq (h : s.analyze ev = .ok a) (hcover : ∀ p ∈ ps, p.part ∈ a.sections)
    (hnames : (ps.map (·.name)).Nodup) : a.codeGroup ps = inSection ps .untagged := by
  refine List.filter_congr fun p hp => ?_
  rw [decide_eq_decide, not_iff_comm, List.mem_map]
  constructor
  · intro hne
    exact ⟨p, (mem_placed h hcover).2 ⟨hp, hne⟩, rfl⟩
  · rintro ⟨q, hq, hname⟩
    obtain ⟨hq, hne⟩ := (mem_placed h hcover).1 hq
    obtain rfl := List.inj_on_of_nodup_map hnames hq hp hname
    exact hne

/-- The groups of all files have each procedure once. -/
theorem perm_groups (h : s.analyze ev = .ok a) (hcover : ∀ p ∈ ps, p.part ∈ a.sections)
    (hnames : (ps.map (·.name)).Nodup) : (a.placed ps ++ a.codeGroup ps).Perm ps := by
  have hall : a.placed ps ++ a.codeGroup ps = a.sections.flatMap (inSection ps) := by
    rw [placed_eq, codeGroup_eq h hcover hnames, sections]
    simp
  rw [hall]
  exact perm_flatMap_filter hnames.of_map (nodup_sections h) hcover

end

end Analysis

/-! ## Arrangement in files -/

/-- Which procedures each file has, the storage file in groups of a record type each. -/
structure Arrangement where
  stdlib : List Procedure
  constants : List Procedure
  storage : List (RecordType × List Procedure)
  code : List Procedure

/-- The lines above the groups that are in a file of their own. -/
structure FileHeaders where
  declarations : List String
  stdlib : List String
  constants : List String
  code : List String

namespace Arrangement

/-- The procedures of all files. -/
def procedures (w : Arrangement) : List Procedure :=
  w.stdlib ++ w.constants ++ w.storage.flatMap (·.2) ++ w.code

/-- The files that an emitter makes of the groups, with declarations of `ps` before them. -/
def files (w : Arrangement) (headers : FileHeaders) (passedOn : List OutputFile)
    (filePrefix : String) (emitter : Emitter) (ps : List Procedure) : List OutputFile :=
  let storage := w.storage.map fun (t, group) => emitter.emit (Analysis.storageHeader t) group
  [⟨filePrefix ++ ".headers.fc", emitter.declare headers.declarations ps⟩,
    ⟨filePrefix ++ ".stdlib.fc", emitter.emit headers.stdlib w.stdlib⟩]
    ++ passedOn
    ++ [⟨filePrefix ++ ".constants.fc", emitter.emit headers.constants w.constants⟩,
      ⟨filePrefix ++ ".storage.fc", String.intercalate "\n" storage⟩,
      ⟨filePrefix ++ ".code.fc", emitter.emit headers.code w.code⟩]

/-- Each of the procedures `ps` has its place, by the section that it belongs to. -/
structure Arranges (w : Arrangement) (order : List String) (ps : List Procedure) : Prop where
  once : w.procedures.Perm ps
  stdlib : w.stdlib = ps.filter (·.part = .stdlib)
  constants : w.constants = ps.filter (·.part = .constants)
  storage : ∀ group ∈ w.storage, group.2 =
    ps.filter (·.part = .type group.1.name) ++ ps.filter (·.part = .typeInit group.1.name)
  grouped : ∀ p ∈ ps, ∀ name, p.part = .type name ∨ p.part = .typeInit name →
    ∃ group ∈ w.storage, group.1.name = name ∧ p ∈ group.2
  ordered : (w.storage.map (·.1.name)).Sublist order
  code : w.code = ps.filter (·.part = .untagged)

end Arrangement

namespace Analysis

variable {s : TypeStore} {ev : Evaluator} {a : Analysis}

/-- The groups of the files. -/
def arrangement (a : Analysis) (ps : List Procedure) : Arrangement :=
  ⟨inSection ps .stdlib, inSection ps .constants, a.storageGroups ps, a.codeGroup ps⟩

theorem mem_storageGroups {ps : List Procedure} {group : RecordType × List Procedure} :
    group ∈ a.storageGroups ps ↔
      group.1 ∈ a.orderedTypes ∧ group.2 = storageGroup ps group.1 ∧ group.2 ≠ [] := by
  simp only [storageGroups, List.mem_filter, List.mem_map, Bool.not_eq_true',
    List.isEmpty_eq_false_iff]
  constructor
  · rintro ⟨⟨t, ht, rfl⟩, hne⟩
    exact ⟨ht, rfl, hne⟩
  · rintro ⟨ht, hgroup, hne⟩
    exact ⟨⟨group.1, ht, Prod.ext rfl hgroup.symm⟩, hne⟩

theorem arranges (h : s.analyze ev = .ok a) {ps : List Procedure}
    (hcover : ∀ p ∈ ps, p.part ∈ a.sections) (hnames : (ps.map (·.name)).Nodup) :
    (a.arrangement ps).Arranges a.order ps := by
  refine
    { once := perm_groups h hcover hnames
      stdlib := rfl
      constants := rfl
      storage := fun group hgroup => (mem_storageGroups.1 hgroup).2.1
      grouped := fun p hp name hpart => ?_
      ordered := ?_
      code := codeGroup_eq h hcover hnames }
  · obtain ⟨t, ht, hname⟩ : ∃ t ∈ a.orderedTypes, t.name = name := by
      have hsec := hcover p hp
      rcases hpart with hpart | hpart <;>
        simpa [hpart, sections, mem_storageSections, eq_comm] using hsec
    have hmem : p ∈ storageGroup ps t := by
      rcases hpart with hpart | hpart <;> simp [storageGroup, inSection, hp, hpart, hname]
    refine ⟨(t, storageGroup ps t), mem_storageGroups.2 ⟨ht, rfl, ?_⟩, hname, hmem⟩
    exact List.ne_nil_of_mem hmem
  · rw [← TypeStore.names_orderedTypes h]
    have hgroups := (List.filter_sublist (p := fun group => !group.2.isEmpty)
      (l := a.orderedTypes.map fun t => (t, storageGroup ps t))).map (·.1.name)
    rwa [List.map_map] at hgroups

/-- The procedures that are put into files have sections of files, and different names. -/
theorem covered_extract (h : s.analyze ev = .ok a) (link : String) (comments : Bool) :
    (∀ p ∈ (a.registry link).extract comments, p.part ∈ a.sections)
      ∧ (((a.registry link).extract comments).map (·.name)).Nodup := by
  have hproper := proper_registry a link
  refine ⟨fun p hp => ?_, hproper.names_extract comments ▸ hproper.distinct⟩
  obtain ⟨entry, hentry, hpart⟩ := Registry.exists_of_mem_extract hp
  exact hpart ▸ part_mem_sections h (mem_procedures_of_registered hentry)

/-- The lines above the groups, which do not depend on what an emitter makes of these. -/
def fileHeaders (a : Analysis) (o : CompileOptions) (entry : String) (globals : List String)
    (ps : List Procedure) : FileHeaders where
  declarations := [";;", ";; Header files for " ++ entry, ";;"]
  stdlib := globals ++ ["", ";; Stdlib"]
  constants := [";; Constants"]
  code := codeHeader o.languageVersion entry
    (a.libraryFiles o.filePrefix entry .standard globals ps)

/-- The source files that are passed through, in a file of their own if there are any. -/
def passedOnFiles (a : Analysis) (filePrefix : String) : List OutputFile :=
  if a.store.nativeSources.isEmpty then []
  else [⟨filePrefix ++ ".native.fc", nativeCode a.store.nativeSources⟩]

theorem files_eq (a : Analysis) (o : CompileOptions) (entry : String) (emitter : Emitter)
    (globals : List String) (ps : List Procedure) :
    let files := a.libraryFiles o.filePrefix entry emitter globals ps
    files ++ [⟨o.filePrefix ++ ".code.fc",
        emitter.emit (codeHeader o.languageVersion entry files) (a.codeGroup ps)⟩] =
      (a.arrangement ps).files (a.fileHeaders o entry globals ps) (a.passedOnFiles o.filePrefix)
        o.filePrefix emitter ps := by
  have hcode : codeHeader o.languageVersion entry
      (a.libraryFiles o.filePrefix entry emitter globals ps) =
        (a.fileHeaders o entry globals ps).code := by
    unfold fileHeaders codeHeader libraryFiles
    split <;> rfl
  dsimp only
  rw [hcode]
  simp [libraryFiles, Arrangement.files, arrangement, passedOnFiles, fileHeaders]

/--
The registered procedures are in the files of their sections, each once: whatever the emitter, it
declares all of them in order, and it is given the groups of an arrangement of them.
-/
theorem artifact_arranged (h : s.analyze ev = .ok a) {o : CompileOptions} {emitter : Emitter}
    {addresser : Addresser} {art : Artifact} (hart : a.artifact o emitter addresser = .ok art) :
    (((a.registry art.abiLink).extract o.comments).map (·.name)).Nodup
      ∧ ∃ w : Arrangement, w.Arranges a.order ((a.registry art.abiLink).extract o.comments)
        ∧ ∃ headers passedOn, ∀ emitter', ∃ art', a.artifact o emitter' addresser = .ok art'
          ∧ art'.files = w.files headers passedOn o.filePrefix emitter'
            ((a.registry art.abiLink).extract o.comments) := by
  obtain ⟨entry, hentry, hart⟩ := bind_eq_ok.1 hart
  cases hart
  dsimp only
  generalize hlink : addresser (a.store.descriptionText entry.name) = link
  obtain ⟨hcover, hnames⟩ := covered_extract h link o.comments
  refine ⟨hnames, a.arrangement _, arranges h hcover hnames, ?_⟩
  refine ⟨a.fileHeaders o entry.name (a.registry link).globals
      ((a.registry link).extract o.comments), a.passedOnFiles o.filePrefix,
    fun emitter' => ⟨_, bind_eq_ok.2 ⟨entry, hentry, rfl⟩, ?_⟩⟩
  rw [hlink]
  exact files_eq a o entry.name emitter' (a.registry link).globals _

/-- The files of a contract with parameters and of messages. -/
theorem artifact_arranged_sample : ∃ a art, sampleBank.analyze Expr.evaluate = .ok a
    ∧ a.artifact { entry := "Bank" } .standard crc32Link = .ok art
    ∧ ∃ (w : Arrangement) (headers : FileHeaders) (passedOn : List OutputFile),
      w.Arranges a.order ((a.registry art.abiLink).extract false)
      ∧ art.files = w.files headers passedOn "Bank" .standard
        ((a.registry art.abiLink).extract false) := by
  obtain ⟨art, hart⟩ := exists_sampleBank
  have hart : (sampleBank.analyze Expr.evaluate).bind
      (·.artifact { entry := "Bank" } .standard crc32Link) = .ok art := hart
  obtain ⟨a, ha, hart⟩ := bind_eq_ok.1 hart
  obtain ⟨-, w, hw, headers, passedOn, hfiles⟩ := artifact_arranged ha hart
  obtain ⟨art', hart', hfiles⟩ := hfiles .standard
  obtain rfl : art' = art := Except.ok.inj (hart'.symm.trans hart)
  exact ⟨a, art', ha, hart, w, headers, passedOn, hw, hfiles⟩

end Analysis
end CellPack
