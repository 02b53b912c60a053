import Mathlib
import CellPack.Proofs.Contracts
import CellPack.Proofs.Registration
/-!
# Contracts without parameters

The procedures of a contract that declares no parameters write and read nothing behind the clear
flag. The machine takes the programs of the parameters by name whether there are any or not. Such a
contract has none, so the machine neither makes nor reads its data before the first state
(`Artifact.initData_unset`).
-/

namespace CellPack

/-! ## Bodies -/

namespace TypeStore

variable {s : TypeStore} {t : RecordType}

theorem body_initData_unset (h : t.init = none) : (s.initDataProcedure t).body =
    [.plain "builder b = begin_cell();", .plain "b = b.store_int(false, 1);",
      .plain "return b.end_cell();"] := by
  unfold initDataProcedure
  rw [h]
  rfl

theorem body_contractLoad_unset (h : t.init = none) : (s.contractLoadProcedure t).body =
    [.plain "slice $sc = get_data().begin_parse();",
      .plain "int $loaded = $sc~load_int(1);", .plain "if ($loaded) \x7b",
      .around "    return $sc~" (ProcName.loadNoHeader t.name) "();", .plain "\x7d",
      .plain "$sc.end_parse();", .around "return " (ProcName.contractInit t.name) "();"] := by
  unfold contractLoadProcedure loadParameters
  rw [h]
  rfl

end TypeStore

namespace Analysis

variable {s : TypeStore} {ev : Evaluator} {a : Analysis} {t : RecordType} {p : Procedure}
  {link : String}

/-- A contract that declares no parameters has none in the analysis. -/
theorem Of.exists_unset (ha : a.Of s) {name : String} (ht : s.get? name = some t)
    (hcontract : t.isContract = true) (hinit : t.init = none) :
    ∃ u ∈ a.store.types, u.isContract = true ∧ u.init = none ∧ u.name = name := by
  obtain ⟨u, hu, -, hkind, -, hparams⟩ := ha.outline.symm.exists_get? ht
  refine ⟨u, TypeStore.mem_of_get? hu, ?_, ?_, TypeStore.name_of_get? hu⟩
  · rw [RecordType.isContract, hkind]
    exact hcontract
  · simpa [hinit] using hparams

section
variable (h : s.analyze ev = .ok a) (hplain : a.store.PlainNames) (ht : t ∈ a.store.types)

include h hplain ht

/-! ## Registered procedures of contracts -/

/-- A procedure with the name of one of a record type is one of the record type. -/
theorem mem_typeProcedures_of_title {x : Title} (hx : x ∈ t.titles) (hp : p ∈ a.procedures link)
    (hname : p.name = x.text) : p ∈ a.typeProcedures t := by
  have hid := (TypeStore.analyze_ok h).identified
  have howner := RecordType.owner?_of_mem_titles hx
  have hplainx := RecordType.plain_of_mem_titles (hplain.types t ht) hx
  have hfree : x ∉ freeTitles := by
    intro hmem
    obtain ⟨name, rfl⟩ := exists_of_mem_freeTitles hmem
    cases howner
  have htitle {ps : List Procedure} {xs : List Title} {ids : List LayoutId}
      (hps : a.Generates ps xs ids) (hxs : xs ⊆ a.titles) (hp : p ∈ ps) : x ∈ xs :=
    hps.mem_of_name (fun y hy => plain_titles hplain (hxs hy)) hplainx hp hname
  -- the other procedures have titles that no procedure of a record type has
  simp only [procedures, List.mem_append] at hp
  rcases hp with ((hp | hp) | hp) | hp
  · have hmem := htitle (generates_stdlib a) (fun y hy => by simp [titles, hy]) hp
    exact absurd (List.mem_append_left _ hmem) hfree
  · have hmem := htitle (generates_constants a) (fun y hy => by simp [titles, hy]) hp
    have hx : x ∈ [t].flatMap RecordType.titles := by simpa using hx
    exact (TypeStore.disjoint_titles hmem hx).elim
  · obtain ⟨u, hu, hp⟩ := List.mem_flatMap.1 hp
    obtain ⟨hordered, hkind⟩ := List.mem_filter.1 hu
    have hmemu := mem_types_of_mem_orderedTypes hordered
    have hmem := htitle (generates_typeProcedures hid h hmemu hkind) (fun y hy => by
      simp only [titles, List.mem_append]
      exact .inl (.inr (List.mem_flatMap.2 ⟨u, hu, hy⟩))) hp
    have hsame : u.name = t.name :=
      Option.some.inj ((RecordType.owner?_of_mem_titles hmem).symm.trans howner)
    rwa [← List.inj_on_of_nodup_map a.store.types_distinct hmemu ht hsame]
  · have hmem := htitle (generates_link a link)
      (fun y hy => by simp [titles, List.mem_singleton.1 hy]) hp
    exact absurd (List.mem_append_right _ hmem) hfree

/-- The procedures of a contract are registered under their names. -/
theorem get?_registry_of_contract (hcontract : t.isContract = true) (hp : p ∈ a.typeProcedures t) :
    (a.registry link).get? p.name = some p := by
  have ha := TypeStore.analyze_ok h
  have hkind := RecordType.hasLayout_of_contract hcontract
  have hnames := (generates_typeProcedures ha.identified h ht hkind).names
  have hplains {x : Title} (hx : x ∈ t.titles) : x.Plain :=
    RecordType.plain_of_mem_titles (hplain.types t ht) hx
  obtain ⟨x, hx, htext⟩ := List.mem_map.1 (hnames ▸ List.mem_map_of_mem hp)
  obtain ⟨q, hq, hname, hget⟩ :=
    exists_registered ⟨p, mem_procedures_of_type (ha.ordered t ht) hkind hp link, rfl⟩
  have hqt := mem_typeProcedures_of_title h hplain ht hx hq (hname.trans htext.symm)
  have hnodup : ((a.typeProcedures t).map (·.name)).Nodup := by
    rw [hnames]
    exact (List.nodup_map_iff_inj_on (RecordType.nodup_titles_of_contract hcontract)).2
      fun x hx y hy => Title.text_inj (hplains hx) (hplains hy)
  rwa [List.inj_on_of_nodup_map hnodup hqt hp hname] at hget

/-- So they are in the output. -/
theorem exists_mem_extract_of_contract (hcontract : t.isContract = true)
    (hp : p ∈ a.typeProcedures t) (comments : Bool) :
    ∃ q ∈ (a.registry link).extract comments, q.name = p.name ∧ q.body = p.body := by
  obtain ⟨q, hq, hname, -, hbody⟩ := (proper_registry a link).exists_mem_extract
    (get?_registry_of_contract h hplain ht hcontract hp) comments
  exact ⟨q, hq, hname, hbody⟩

omit hplain in
theorem typeProcedures_of_contract (hcontract : t.isContract = true) :
    ∃ l, a.typeProcedures t = a.fullProcedures t l ++ a.store.contractProcedures t
      ++ a.initProcedures t ++ [a.store.initDataProcedure t] := by
  obtain ⟨l, hl⟩ := (exists_layout_iff h ht (.full t.name) rfl).2
    (RecordType.full_mem_layoutIds (RecordType.hasLayout_of_contract hcontract))
  refine ⟨l, ?_⟩
  unfold typeProcedures
  rw [hl]
  exact if_pos hcontract

omit hplain in
theorem initData_mem_typeProcedures (hcontract : t.isContract = true) :
    a.store.initDataProcedure t ∈ a.typeProcedures t := by
  obtain ⟨l, hprocs⟩ := typeProcedures_of_contract h ht hcontract
  simp [hprocs]

omit hplain in
theorem contractLoad_mem_typeProcedures (hcontract : t.isContract = true) :
    a.store.contractLoadProcedure t ∈ a.typeProcedures t := by
  obtain ⟨l, hprocs⟩ := typeProcedures_of_contract h ht hcontract
  simp [hprocs, TypeStore.contractProcedures]

/-! ## Programs that do not exist -/

/-- No procedure has a name of one of the parameters if the contract declares none. -/
theorem name_ne_ofType_initType (hinit : t.init = none) (hp : p ∈ a.procedures link)
    (role : String) : p.name ≠ ProcName.ofType (ProcName.initType t.name) role := by
  have hid := (TypeStore.analyze_ok h).identified
  have hdollar := hplain.types t ht
  intro hname
  cases procedures_cases hid hplain hp with
  | free hother _ => exact hother _ _ hname.symm
  | constant hu c hq _ =>
    exact ProcName.ofType_ne_ofType_initType (hplain.types _ hu) hdollar (hq.symm.trans hname)
  | full hu _ hplays =>
    obtain ⟨does, hq, -⟩ := hplays
    exact ProcName.ofType_ne_ofType_initType (hplain.types _ hu) hdollar (hq.symm.trans hname)
  | init hu hl hplays =>
    obtain ⟨does, hq, -⟩ := hplays
    obtain ⟨hsame, -⟩ :=
      ProcName.ofType_initType_inj (hplain.types _ hu) hdollar (hq.symm.trans hname)
    rw [hsame] at hl
    obtain ⟨-, heq | ⟨-, heq⟩ | ⟨⟨-, hsome⟩, -⟩⟩ :=
      RecordType.mem_layoutIds ((exists_layout_iff h ht (.init t.name) rfl).1 ⟨_, hl⟩)
    · cases heq
    · cases heq
    · rw [hinit] at hsome
      cases hsome

/-- So there is no program of the name either. -/
theorem lookup_ofType_initType (hinit : t.init = none) (role : String) (parser : Bool) :
    (a.registry link).programs.lookup parser (ProcName.ofType (ProcName.initType t.name) role) =
      .error (.unknownProgram (ProcName.ofType (ProcName.initType t.name) role)) := by
  have hid := (TypeStore.analyze_ok h).identified
  have hnone : Table.get? (a.registry link).programs
      (ProcName.ofType (ProcName.initType t.name) role) = none := by
    rw [Registry.programs, ProgramSet.get?_ofList, List.find?_eq_none]
    intro p hp hname
    obtain ⟨entry, hentry, hprogram⟩ := List.mem_filterMap.1 hp
    have hq := mem_procedures_of_registered hentry
    refine name_ne_ofType_initType h hplain ht hinit hq role ?_
    exact (name_of_program hid hplain hq hprogram).symm.trans (of_decide_eq_true hname)
  rw [ProgramSet.lookup, hnone]

end

end Analysis

namespace Machine

theorem storeAfter_unknown {m : Machine} {name : String} {e : RuntimeError}
    (h : m.programs.lookup false name = .error e) (bits : List Bool) (v : Value) :
    m.storeAfter bits name v = .error e := by
  rw [storeAfter_eq, run_storeProgram_error h]
  rfl

theorem loadFrom_unknown {m : Machine} {name : String} {e : RuntimeError}
    (h : m.programs.lookup true name = .error e) (s : Slice) : m.loadFrom name s = .error e := by
  have hrun : (loadRecord m.programs m.limits m.limits.depth name s).run m.limits.steps =
      (.error e, m.limits.steps) := by
    unfold loadRecord loadProgram
    rw [h]
    rfl
  rw [loadFrom_eq, hrun]
  rfl

end Machine

namespace Artifact

variable {s : TypeStore} {o : CompileOptions} {tools : Toolchain} {art : Artifact}

/--
The code of a contract without parameters makes its first data of a clear flag alone, and reads
nothing behind one. The machine of the same artifact looks for programs of parameters that no record
type has, so it does neither.
-/
theorem initData_unset (hart : s.compile o tools = .ok art) (hplain : s.PlainNames)
    {name : String} {t : RecordType} (ht : s.get? name = some t) (hcontract : t.isContract = true)
    (hinit : t.init = none) :
    (∃ a, s.analyze tools.evaluator = .ok a
      ∧ (∃ p ∈ (a.registry art.abiLink).extract o.comments, p.name = ProcName.initData name
        ∧ p.body =
          [.plain "builder b = begin_cell();", .plain "b = b.store_int(false, 1);",
            .plain "return b.end_cell();"])
      ∧ ∃ p ∈ (a.registry art.abiLink).extract o.comments, p.name = ProcName.contractLoad name
        ∧ p.body =
          [.plain "slice $sc = get_data().begin_parse();",
            .plain "int $loaded = $sc~load_int(1);", .plain "if ($loaded) \x7b",
            .around "    return $sc~" (ProcName.loadNoHeader name) "();", .plain "\x7d",
            .plain "$sc.end_parse();", .around "return " (ProcName.contractInit name) "();"])
      ∧ ∀ limits,
        (∀ v, (art.machine limits).initData name v =
          .error (.unknownProgram (ProcName.store (ProcName.initType name))))
        ∧ ∀ bits refs, (art.machine limits).loadContract name (.mk (false :: bits) refs) =
          .error (.unknownProgram (ProcName.load (ProcName.initType name))) := by
  obtain ⟨a, h, hart⟩ := TypeStore.exists_artifact hart
  have ha := TypeStore.analyze_ok h
  have hplain := ha.plainNames hplain
  obtain ⟨u, hu, hcontract, hinit, rfl⟩ := ha.exists_unset ht hcontract hinit
  have hunknown (limits : Limits) (role : String) (parser : Bool) :
      (art.machine limits).programs.lookup parser
          (ProcName.ofType (ProcName.initType u.name) role) =
        .error (.unknownProgram (ProcName.ofType (ProcName.initType u.name) role)) := by
    rw [machine, Analysis.programs_of_artifact hart]
    exact Analysis.lookup_ofType_initType h hplain hu hinit role parser
  refine ⟨⟨a, h, ?_, ?_⟩, fun limits => ⟨fun v => ?_, fun bits refs => ?_⟩⟩
  · obtain ⟨q, hq, hname, hbody⟩ := Analysis.exists_mem_extract_of_contract h hplain hu hcontract
      (Analysis.initData_mem_typeProcedures h hu hcontract) o.comments
    exact ⟨q, hq, hname, hbody.trans (TypeStore.body_initData_unset hinit)⟩
  · obtain ⟨q, hq, hname, hbody⟩ := Analysis.exists_mem_extract_of_contract h hplain hu hcontract
      (Analysis.contractLoad_mem_typeProcedures h hu hcontract) o.comments
    exact ⟨q, hq, hname, hbody.trans (TypeStore.body_contractLoad_unset hinit)⟩
  · exact Machine.storeAfter_unknown (hunknown limits "store" false) _ v
  · have hread : (Cell.mk (false :: bits) refs).toSlice =
        (Builder.ofBits [false]).onto ⟨bits, refs⟩ := rfl
    have hload : (art.machine limits).loadFrom (ProcName.load (ProcName.initType u.name))
        ⟨bits, refs⟩ = .error _ := Machine.loadFrom_unknown (hunknown limits "load" true) _
    rw [Machine.loadContract_onto _ _ false hread, hload]
    rfl

/-- A wallet, which has no parameters. -/
theorem initData_unset_sample : ∃ art, sampleStore.compile { entry := "Wallet" } = .ok art
    ∧ (art.machine {}).initData "Wallet" (.record []) =
      .error (.unknownProgram "$Wallet$init$_store")
    ∧ (art.machine {}).loadContract "Wallet" (.mk [false] []) =
      .error (.unknownProgram "$Wallet$init$_load") := by
  obtain ⟨art, hart⟩ := exists_sample
  obtain ⟨t, ht, hcontract, hinit⟩ : ∃ t, sampleStore.get? "Wallet" = some t
      ∧ t.isContract = true ∧ t.init = none := ⟨_, rfl, rfl, rfl⟩
  obtain ⟨-, hmachine⟩ := initData_unset hart plainNames_sample ht hcontract hinit
  obtain ⟨hstore, hload⟩ := hmachine {}
  exact ⟨art, hart, hstore (.record []), hload [] []⟩

/-- The machine does not do what the procedures of such a contract do. -/
theorem initData_unset_wallet : ¬∀ (s : TypeStore) (o : CompileOptions) (art : Artifact)
    (name : String) (t : RecordType), s.compile o = .ok art → s.get? name = some t →
      t.isContract = true → t.init = none →
      (art.machine {}).initData name (.record []) = .ok (.mk [false] [])
        ∧ (art.machine {}).loadContract name (.mk [false] []) = .ok (.pending (.record [])) := by
  intro h
  obtain ⟨art, hart⟩ := exists_sample
  obtain ⟨hdata, -⟩ := h sampleStore _ art "Wallet" _ hart rfl rfl rfl
  have hrun : (sampleStore.compile { entry := "Wallet" }).toOption.any (fun art =>
      !((art.machine {}).initData "Wallet" (.record [])).isOk) = true := by
    decide +kernel
  rw [hart] at hrun
  simp [Except.toOption, hdata, Except.isOk, Except.toBool] at hrun

end Artifact
end CellPack
