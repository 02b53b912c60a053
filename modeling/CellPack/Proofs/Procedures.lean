import Mathlib
import CellPack.Artifact
import CellPack.Proofs.Names
import CellPack.Proofs.Registry
/-!
# Programs of an analysed store

The procedures of a record type tell their programs by their roles. Without dollar signs in the
names of types and free-standing constants, no other procedure has the name of one of them
(`Analysis.get?_programs`).
-/

namespace CellPack

/--
Neither types nor free-standing constants have dollar signs in their names. Constants of a contract
and fields may have some: the name of the type stands between dollar signs in front of theirs.
-/
structure TypeStore.PlainNames (s : TypeStore) : Prop where
  types : ∀ t ∈ s.types, '$' ∉ t.name.toList
  constants : ∀ c ∈ s.constants, '$' ∉ c.name.toList

/-! ## Procedures without a program -/

theorem Stdlib.plain_of_mem_procedures {q : Procedure} (h : q ∈ Stdlib.procedures) :
    q.name.toList.head? ≠ some '$' ∧ q.program = none := by
  simp only [Stdlib.procedures, List.mem_cons, List.not_mem_nil, or_false] at h
  rcases h with rfl | rfl | rfl | rfl | rfl <;> exact ⟨by decide, rfl⟩

theorem TypeStore.plain_of_mem_constantProcedures {s : TypeStore} {q : Procedure}
    (h : q ∈ s.constantProcedures) :
    ((∃ c ∈ s.constants, q.name = ProcName.constant c.name)
      ∨ ∃ t ∈ s.types, ∃ c : Constant, q.name = ProcName.ofType t.name ("const_" ++ c.name))
    ∧ q.program = none := by
  rcases List.mem_append.1 h with h | h
  · obtain ⟨c, hc, hq⟩ := List.mem_filterMap.1 h
    obtain ⟨v, -, rfl⟩ := Option.map_eq_some_iff.1 hq
    exact ⟨.inl ⟨c, hc, rfl⟩, rfl⟩
  · obtain ⟨t, ht, h⟩ := List.mem_flatMap.1 h
    obtain ⟨c, -, hq⟩ := List.mem_filterMap.1 h
    obtain ⟨v, -, rfl⟩ := Option.map_eq_some_iff.1 hq
    exact ⟨.inr ⟨t, (List.mem_filter.1 ht).1, c, rfl⟩, rfl⟩

/-! ## Procedures of a record type -/

namespace Layout

/-- The program behind a role of the procedures of a record type. -/
def roleProgram? (full : Layout) (bounced : Option Layout) (role : String) : Option Program :=
  if role = "store" then some full.serializer
  else if role = "load" then some (full.parser .withHeader)
  else if role = "load_no_opcode" then some (full.parser .noHeader)
  else if role = "load_bounced" then bounced.map (·.parser .bounced)
  else none

theorem roleProgram?_append {full : Layout} {bounced : Option Layout} {c : Char} {cs : List Char}
    {start role : String} (hstart : start.toList = c :: cs) (hs : c ≠ 's') (hl : c ≠ 'l') :
    full.roleProgram? bounced (start ++ role) = none := by
  have hchar : ∀ name : String, start ++ role = name → name.toList.head? = some c := by
    rintro name rfl
    rw [String.toList_append, hstart]
    rfl
  unfold roleProgram?
  split_ifs with h h h h
  · exact absurd (Option.some.inj (hchar _ h)).symm hs
  · exact absurd (Option.some.inj (hchar _ h)).symm hl
  · exact absurd (Option.some.inj (hchar _ h)).symm hl
  · exact absurd (Option.some.inj (hchar _ h)).symm hl
  · rfl

/-- The procedure is one of the type, with the program of its role. -/
def Plays (full : Layout) (bounced : Option Layout) (type : String) (q : Procedure) : Prop :=
  ∃ role, q.name = ProcName.ofType type role ∧ q.program = full.roleProgram? bounced role

variable {l : Layout} {bounced : Option Layout} {s : TypeStore} {t : RecordType} {q : Procedure}

theorem plays_contractProcedure (h : q ∈ s.contractProcedures t) : l.Plays bounced t.name q := by
  simp only [TypeStore.contractProcedures, List.mem_cons, List.not_mem_nil, or_false] at h
  rcases h with rfl | rfl | rfl
  · exact ⟨"contract_init", rfl, rfl⟩
  · exact ⟨"contract_load", rfl, rfl⟩
  · exact ⟨"contract_store", rfl, rfl⟩

theorem plays_initDataProcedure : l.Plays bounced t.name (s.initDataProcedure t) :=
  ⟨"init_data", rfl, rfl⟩

theorem plays_wrapperProcedure {tensor : String} {sec : Section}
    (h : q ∈ wrapperProcedures t.name tensor sec) : l.Plays bounced t.name q := by
  simp only [wrapperProcedures, List.mem_cons, List.not_mem_nil, or_false] at h
  rcases h with rfl | rfl | rfl | rfl
  · exact ⟨"store_cell", rfl, rfl⟩
  · exact ⟨"store_opt", rfl, rfl⟩
  · exact ⟨"load_cell", rfl, rfl⟩
  · exact ⟨"load_opt", rfl, rfl⟩

theorem plays_accessorProcedure {fields : List Field} {sec : Section}
    (h : q ∈ accessorProcedures s t.name fields sec) : l.Plays bounced t.name q := by
  rcases List.mem_append.1 h with h | h
  · obtain ⟨f, -, rfl⟩ := List.mem_map.1 h
    exact ⟨"get_" ++ f.name, rfl, (roleProgram?_append rfl (by decide) (by decide)).symm⟩
  · simp only [List.mem_cons, List.not_mem_nil, or_false] at h
    rcases h with rfl | rfl | rfl
    · exact ⟨"to_tuple", rfl, rfl⟩
    · exact ⟨"as_optional", rfl, rfl⟩
    · exact ⟨"not_null", rfl, rfl⟩

theorem name_serializerProcedure {fields : List Field} {sec : Section} {forceInline : Bool}
    {type : String} (hid : l.id.procedureType = type) :
    (l.serializerProcedure s fields sec forceInline).name = ProcName.store type := by
  rw [← hid]
  rfl

theorem name_parserProcedure {fields : List Field} {sec : Section} {forceInline : Bool}
    {mode : ParserMode} {type : String} (hid : l.id.procedureType = type) :
    (l.parserProcedure s fields sec mode forceInline).name = mode.procedure type := by
  rw [← hid]
  rfl

theorem plays_serializerProcedure {fields : List Field} {sec : Section} {forceInline : Bool}
    (hid : l.id.procedureType = t.name) :
    l.Plays bounced t.name (l.serializerProcedure s fields sec forceInline) :=
  ⟨"store", name_serializerProcedure hid, rfl⟩

theorem plays_parserProcedure {fields : List Field} {sec : Section} {forceInline : Bool}
    {mode : ParserMode} (hid : l.id.procedureType = t.name) (hmode : mode ≠ .bounced) :
    l.Plays bounced t.name (l.parserProcedure s fields sec mode forceInline) := by
  cases mode with
  | withHeader => exact ⟨"load", name_parserProcedure hid, rfl⟩
  | noHeader => exact ⟨"load_no_opcode", name_parserProcedure hid, rfl⟩
  | bounced => exact absurd rfl hmode

/-- The program of a role has the name of the role. -/
theorem name_of_roleProgram? {type role : String} {p : Program} (hid : l.id.procedureType = type)
    (hleft : ∀ left, bounced = some left → left.id.procedureType = type)
    (h : l.roleProgram? bounced role = some p) : p.name = ProcName.ofType type role := by
  unfold roleProgram? at h
  split_ifs at h with h1 h2 h3 h4
  · cases h
    rw [h1, ← hid]
    rfl
  · cases h
    rw [h2, ← hid]
    rfl
  · cases h
    rw [h3, ← hid]
    rfl
  · obtain ⟨left, hl, rfl⟩ := Option.map_eq_some_iff.1 h
    rw [h4, ← hleft left hl]
    rfl

end Layout

namespace Analysis

variable {a : Analysis} {t : RecordType} {l : Layout} {q : Procedure}

/-- All layouts of the analysis are under their own ids. -/
def Identified (a : Analysis) : Prop := ∀ id l, a.layouts.get? id = some l → l.id = id

theorem Identified.full (hid : a.Identified) (hl : a.layouts.get? (.full t.name) = some l) :
    l.id.procedureType = t.name := by
  rw [hid _ l hl]
  rfl

theorem Identified.bounced (hid : a.Identified) (hl : a.layouts.get? (.bounced t.name) = some l) :
    l.id.procedureType = t.name := by
  rw [hid _ l hl]
  rfl

theorem Identified.init (hid : a.Identified) (hl : a.layouts.get? (.init t.name) = some l) :
    l.id.procedureType = ProcName.initType t.name := by
  rw [hid _ l hl]
  rfl

theorem plays_bouncedProcedure (hid : a.Identified) (h : q ∈ a.bouncedProcedures t) :
    l.Plays (a.layouts.get? (.bounced t.name)) t.name q := by
  unfold bouncedProcedures at h
  cases hb : a.layouts.get? (.bounced t.name) with
  | none =>
    rw [hb] at h
    cases h
  | some left =>
    rw [hb] at h
    obtain rfl := List.mem_singleton.1 h
    exact ⟨"load_bounced", Layout.name_parserProcedure (hid.bounced hb), rfl⟩

/-- The parameters of a contract have procedures like a record type of their own. -/
theorem plays_of_mem_initProcedures (hid : a.Identified) (h : q ∈ a.initProcedures t) :
    ∃ params, a.layouts.get? (.init t.name) = some params
      ∧ params.Plays none (ProcName.initType t.name) q := by
  unfold initProcedures at h
  split at h
  · next l params hl _ =>
    refine ⟨l, hl, ?_⟩
    simp only [List.mem_cons, List.not_mem_nil, or_false] at h
    rcases h with rfl | rfl
    · exact ⟨"store", Layout.name_serializerProcedure (hid.init hl), rfl⟩
    · exact ⟨"load", Layout.name_parserProcedure (hid.init hl), rfl⟩
  · cases h

/-- A procedure of a record type has the program of its role, or it is one of the parameters. -/
theorem plays_of_mem_typeProcedures (hid : a.Identified)
    (hl : a.layouts.get? (.full t.name) = some l) (h : q ∈ a.typeProcedures t) :
    l.Plays (a.layouts.get? (.bounced t.name)) t.name q
      ∨ ∃ params, a.layouts.get? (.init t.name) = some params
        ∧ params.Plays none (ProcName.initType t.name) q := by
  have hfull (h : q ∈ a.fullProcedures t l) :
      l.Plays (a.layouts.get? (.bounced t.name)) t.name q := by
    simp only [fullProcedures, List.mem_cons, List.not_mem_nil, or_false] at h
    rcases h with rfl | rfl | rfl
    · exact Layout.plays_serializerProcedure (hid.full hl)
    · exact Layout.plays_parserProcedure (hid.full hl) nofun
    · exact Layout.plays_parserProcedure (hid.full hl) nofun
  unfold typeProcedures at h
  rw [hl] at h
  simp only at h
  split at h
  · simp only [List.mem_append, List.mem_singleton] at h
    -- a contract
    rcases h with ((h | h) | h) | rfl
    · exact .inl (hfull h)
    · exact .inl (Layout.plays_contractProcedure h)
    · exact .inr (plays_of_mem_initProcedures hid h)
    · exact .inl Layout.plays_initDataProcedure
  · simp only [List.mem_append] at h
    -- a struct or a message
    rcases h with ((h | h) | h) | h
    · exact .inl (hfull h)
    · exact .inl (plays_bouncedProcedure hid h)
    · exact .inl (Layout.plays_wrapperProcedure h)
    · exact .inl (Layout.plays_accessorProcedure h)

/-! ## Programs by name -/

theorem mem_types_of_mem_orderedTypes (h : t ∈ a.orderedTypes) : t ∈ a.store.types := by
  obtain ⟨name, -, hget⟩ := List.mem_filterMap.1 h
  exact List.mem_of_find?_eq_some hget

/-- Which procedures there are. -/
inductive Procedures (a : Analysis) (q : Procedure) : Prop where
  /-- No type has it. -/
  | free (name : ∀ type role, ProcName.ofType type role ≠ q.name) (program : q.program = none)
  | constant {t : RecordType} (ht : t ∈ a.store.types) (c : String)
    (name : q.name = ProcName.ofType t.name ("const_" ++ c)) (program : q.program = none)
  | full {t : RecordType} {l : Layout} (ht : t ∈ a.store.types)
    (hl : a.layouts.get? (.full t.name) = some l)
    (plays : l.Plays (a.layouts.get? (.bounced t.name)) t.name q)
  | init {t : RecordType} {params : Layout} (ht : t ∈ a.store.types)
    (hl : a.layouts.get? (.init t.name) = some params)
    (plays : params.Plays none (ProcName.initType t.name) q)

theorem procedures_cases (hid : a.Identified) (hplain : a.store.PlainNames) {link : String}
    (h : q ∈ a.procedures link) : a.Procedures q := by
  simp only [procedures, List.mem_append, List.mem_singleton] at h
  rcases h with ((h | h) | h) | rfl
  -- the standard procedures
  · obtain ⟨hhead, hnone⟩ := Stdlib.plain_of_mem_procedures h
    exact .free (fun _ _ => ProcName.ofType_ne_of_head hhead) hnone
  -- the constants
  · obtain ⟨⟨c, hc, hq⟩ | ⟨t, ht, c, hq⟩, hnone⟩ := TypeStore.plain_of_mem_constantProcedures h
    · refine .free (fun _ _ => ?_) hnone
      rw [hq]
      exact ProcName.ofType_ne_constant (hplain.constants c hc)
    · exact .constant ht c.name hq hnone
  -- those of the record types
  · obtain ⟨t, ht, h⟩ := List.mem_flatMap.1 h
    have hmem := mem_types_of_mem_orderedTypes (List.mem_filter.1 ht).1
    cases hl : a.layouts.get? (.full t.name) with
    | none =>
      unfold typeProcedures at h
      rw [hl] at h
      cases h
    | some l =>
      rcases plays_of_mem_typeProcedures hid hl h with hplays | ⟨params, hparams, hplays⟩
      · exact .full hmem hl hplays
      · exact .init hmem hparams hplays
  -- the link of the interface description
  · have hhead : "get_abi_link".toList.head? ≠ some '$' := by decide
    exact .free (fun _ _ => ProcName.ofType_ne_of_head hhead) rfl

/-! ### The registry of an analysis -/

theorem proper_registry (a : Analysis) (link : String) : (a.registry link).Proper :=
  .addAll _ (.of_nil rfl)

theorem mem_procedures_of_registered {link : String} {entry : String × Procedure}
    (h : entry ∈ (a.registry link).procedures) : entry.2 ∈ a.procedures link :=
  ((Registry.mem_addAll h).resolve_left List.not_mem_nil).1

theorem exists_registered {link name : String} (h : ∃ p ∈ a.procedures link, p.name = name) :
    ∃ q ∈ a.procedures link, q.name = name ∧ (a.registry link).get? name = some q :=
  Registry.exists_get?_addAll rfl h

theorem mem_procedures_of_type (ht : t ∈ a.orderedTypes) (hkind : t.kind.hasLayout = true)
    (hq : q ∈ a.typeProcedures t) (link : String) : q ∈ a.procedures link := by
  refine List.mem_append_left _ (List.mem_append_right _ (List.mem_flatMap.2 ⟨t, ?_, hq⟩))
  exact List.mem_filter.2 ⟨ht, hkind⟩

/-! ### Programs in the registry -/

section
variable (hid : a.Identified) (hplain : a.store.PlainNames) {link : String}

include hid hplain

/-- A procedure with the name of a role of a type has the program of the role. -/
theorem program_of_mem_procedures (ht : t ∈ a.store.types)
    (hl : a.layouts.get? (.full t.name) = some l) {role : String} {p : Program}
    (hp : l.roleProgram? (a.layouts.get? (.bounced t.name)) role = some p)
    (h : q ∈ a.procedures link) (hname : q.name = ProcName.ofType t.name role) :
    q.program = some p := by
  have hdollar := hplain.types t ht
  cases procedures_cases hid hplain h with
  | free hother _ => exact absurd hname.symm (hother t.name role)
  | constant ht' c hq _ =>
    obtain ⟨-, rfl⟩ := ProcName.ofType_inj (hplain.types _ ht') hdollar (hq.symm.trans hname)
    rw [Layout.roleProgram?_append rfl (by decide) (by decide)] at hp
    cases hp
  | full ht' hl' hplays =>
    obtain ⟨role', hrole, hprogram⟩ := hplays
    obtain ⟨hsame, rfl⟩ :=
      ProcName.ofType_inj (hplain.types _ ht') hdollar (hrole.symm.trans hname)
    rw [hsame, hl] at hl'
    obtain rfl := Option.some.inj hl'
    rw [hprogram, hsame, hp]
  | init ht' _ hplays =>
    obtain ⟨role', hrole, -⟩ := hplays
    exact absurd (hname.symm.trans hrole)
      (ProcName.ofType_ne_ofType_initType hdollar (hplain.types _ ht'))

/-- So does one with the name of a role of the parameters of a contract. -/
theorem program_of_mem_init (ht : t ∈ a.store.types)
    (hl : a.layouts.get? (.init t.name) = some l) {role : String} {p : Program}
    (hp : l.roleProgram? none role = some p) (h : q ∈ a.procedures link)
    (hname : q.name = ProcName.ofType (ProcName.initType t.name) role) : q.program = some p := by
  have hdollar := hplain.types t ht
  cases procedures_cases hid hplain h with
  | free hother _ => exact absurd hname.symm (hother _ role)
  | constant ht' c hq _ =>
    exact absurd (hq.symm.trans hname)
      (ProcName.ofType_ne_ofType_initType (hplain.types _ ht') hdollar)
  | full ht' _ hplays =>
    obtain ⟨role', hrole, -⟩ := hplays
    exact absurd (hrole.symm.trans hname)
      (ProcName.ofType_ne_ofType_initType (hplain.types _ ht') hdollar)
  | init ht' hl' hplays =>
    obtain ⟨role', hrole, hprogram⟩ := hplays
    obtain ⟨hsame, rfl⟩ :=
      ProcName.ofType_initType_inj (hplain.types _ ht') hdollar (hrole.symm.trans hname)
    rw [hsame, hl] at hl'
    obtain rfl := Option.some.inj hl'
    rw [hprogram, hp]

/-- A program has the name of its procedure. -/
theorem name_of_program {p : Program} (h : q ∈ a.procedures link) (hp : q.program = some p) :
    p.name = q.name := by
  cases procedures_cases hid hplain h with
  | free _ hnone => exact absurd (hnone.symm.trans hp) nofun
  | constant _ _ _ hnone => exact absurd (hnone.symm.trans hp) nofun
  | full _ hl hplays =>
    obtain ⟨role, hname, hprogram⟩ := hplays
    rw [hname]
    exact Layout.name_of_roleProgram? (hid.full hl) (fun _ => hid.bounced) (hprogram ▸ hp)
  | init _ hl hplays =>
    obtain ⟨role, hname, hprogram⟩ := hplays
    rw [hname]
    refine Layout.name_of_roleProgram? (hid.init hl) (fun left hleft => ?_) (hprogram ▸ hp)
    cases hleft

/-- A program is found under a name if it belongs to all procedures of that name. -/
theorem get?_programs {name : String} {p : Program}
    (hunique : ∀ q ∈ a.procedures link, q.name = name → q.program = some p)
    (ht : t ∈ a.orderedTypes) (hkind : t.kind.hasLayout = true)
    (hmem : ∃ q ∈ a.typeProcedures t, q.name = name) :
    Table.get? (a.registry link).programs name = some p := by
  obtain ⟨q, hq, hname⟩ := hmem
  have hq : q ∈ a.procedures link := mem_procedures_of_type ht hkind hq link
  obtain rfl : p.name = name :=
    (name_of_program hid hplain hq (hunique q hq hname)).trans hname
  refine Registry.get?_programs ?_ (fun q hq program => name_of_program hid hplain hq) ⟨q, hq, hname⟩
    hunique
  exact rfl

end

theorem mem_typeProcedures_of_full (hl : a.layouts.get? (.full t.name) = some l)
    (h : q ∈ a.fullProcedures t l) : q ∈ a.typeProcedures t := by
  unfold typeProcedures
  rw [hl]
  dsimp only
  split <;> simp [h]

section
variable (hid : a.Identified) (hplain : a.store.PlainNames) (ht : t ∈ a.orderedTypes)
  (hkind : t.kind.hasLayout = true) (hl : a.layouts.get? (.full t.name) = some l) (link : String)

include hid hplain ht hkind hl

/-- The program of a role is found if a procedure of the type has the name of the role. -/
theorem lookup_role {role : String} {p : Program} {parser : Bool}
    (hp : l.roleProgram? (a.layouts.get? (.bounced t.name)) role = some p)
    (hmem : ∃ q ∈ a.typeProcedures t, q.name = ProcName.ofType t.name role)
    (hparser : (p.kind != .serializer) = parser) :
    (a.registry link).programs.lookup parser (ProcName.ofType t.name role) = .ok p := by
  refine ProgramSet.lookup_eq (get?_programs hid hplain (fun q hq hname => ?_) ht hkind hmem) hparser
  exact program_of_mem_procedures hid hplain (mem_types_of_mem_orderedTypes ht) hl hp hq hname

theorem lookup_store :
    (a.registry link).programs.lookup false (ProcName.store t.name) = .ok l.serializer := by
  refine lookup_role hid hplain ht hkind hl link rfl ?_ rfl
  refine ⟨_, mem_typeProcedures_of_full hl List.mem_cons_self, ?_⟩
  exact Layout.name_serializerProcedure (hid.full hl)

theorem lookup_load {mode : ParserMode} (hmode : mode ≠ .bounced) :
    (a.registry link).programs.lookup true (mode.procedure t.name) = .ok (l.parser mode) := by
  cases mode with
  | withHeader =>
    refine lookup_role hid hplain ht hkind hl link rfl ?_ rfl
    refine ⟨_, mem_typeProcedures_of_full hl (List.mem_cons_of_mem _ List.mem_cons_self), ?_⟩
    exact Layout.name_parserProcedure (hid.full hl)
  | noHeader =>
    refine lookup_role hid hplain ht hkind hl link rfl ?_ rfl
    refine ⟨l.parserProcedure a.store t.fields (.type t.name) .noHeader t.isContract, ?_, ?_⟩
    · exact mem_typeProcedures_of_full hl (by simp [fullProcedures])
    · exact Layout.name_parserProcedure (hid.full hl)
  | bounced => exact absurd rfl hmode

theorem lookup_loadBounced {left : Layout}
    (hleft : a.layouts.get? (.bounced t.name) = some left) (hcontract : t.isContract = false) :
    (a.registry link).programs.lookup true (ProcName.loadBounced t.name) =
      .ok (left.parser .bounced) := by
  have hrole : l.roleProgram? (a.layouts.get? (.bounced t.name)) "load_bounced" =
      some (left.parser .bounced) := by
    rw [hleft]
    rfl
  refine lookup_role hid hplain ht hkind hl link hrole ?_ rfl
  refine ⟨left.parserProcedure a.store t.fields (.type t.name) .bounced false, ?_, ?_⟩
  · unfold typeProcedures bouncedProcedures
    simp [hl, hleft, hcontract]
  · exact Layout.name_parserProcedure (hid.bounced hleft)

/-- The programs of the parameters of a contract are found under the names of their type. -/
theorem lookup_init {params : Layout} {fields : List Field}
    (hparams : a.layouts.get? (.init t.name) = some params) (hinit : t.init = some fields)
    (hcontract : t.isContract = true) :
    (a.registry link).programs.lookup false (ProcName.store (ProcName.initType t.name)) =
        .ok params.serializer
      ∧ (a.registry link).programs.lookup true (ProcName.load (ProcName.initType t.name)) =
        .ok (params.parser .withHeader) := by
  have hinits : a.initProcedures t =
      [params.serializerProcedure a.store fields (.typeInit t.name) true,
        params.parserProcedure a.store fields (.typeInit t.name) .withHeader true] := by
    unfold initProcedures
    rw [hparams, hinit]
  have hlookup {q : Procedure} {role : String} {p : Program} {parser : Bool}
      (hq : q ∈ a.initProcedures t) (hname : q.name = ProcName.ofType (ProcName.initType t.name) role)
      (hp : params.roleProgram? none role = some p) (hparser : (p.kind != .serializer) = parser) :
      (a.registry link).programs.lookup parser
        (ProcName.ofType (ProcName.initType t.name) role) = .ok p := by
    refine ProgramSet.lookup_eq (get?_programs hid hplain (fun q hq hname => ?_) ht hkind ?_) hparser
    · exact program_of_mem_init hid hplain (mem_types_of_mem_orderedTypes ht) hparams hp hq hname
    · refine ⟨q, ?_, hname⟩
      unfold typeProcedures
      rw [hl]
      simp [hcontract, hq]
  constructor
  · exact hlookup (hinits ▸ List.mem_cons_self)
      (Layout.name_serializerProcedure (hid.init hparams)) rfl rfl
  · exact hlookup (hinits ▸ List.mem_cons_of_mem _ List.mem_cons_self)
      (Layout.name_parserProcedure (hid.init hparams)) rfl rfl

end

end Analysis
end CellPack
