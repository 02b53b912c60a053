import Mathlib
import CellPack.Proofs.Compiled
import CellPack.Proofs.Reordering
/-!
# Registration

All procedures of a store have different names if neither its types nor its free-standing constants
have dollar signs in theirs. Then the registry takes every one of them, and a compiled store has all
programs of the layouts of its record types (`Artifact.programs_complete`).
-/

namespace CellPack

/-- No two free-standing constants have the same name, and no two constants of a contract. -/
structure TypeStore.DistinctConstants (s : TypeStore) : Prop where
  globals : (s.constants.map (·.name)).Nodup
  own : ∀ t ∈ s.types, t.isContract = true → (t.constants.map (·.name)).Nodup

/-! ## Titles of procedures -/

/-- What a procedure is named after. -/
inductive Title where
  /-- Nothing that is declared. -/
  | free (name : String)
  | constant (name : String)
  /-- A record type and what the procedure does for it. -/
  | role (type does : String)
  /-- The parameters of a contract and what the procedure does for them. -/
  | initRole (contract does : String)

namespace Title

/-- The name of the procedure. -/
def text : Title → String
  | free name => name
  | constant name => ProcName.constant name
  | role type does => ProcName.ofType type does
  | initRole contract does => ProcName.ofType (ProcName.initType contract) does

/-- The dollar signs in the name are those that the naming has put there. -/
def Plain : Title → Prop
  | free name => name.toList.head? ≠ some '$'
  | constant name => '$' ∉ name.toList
  | role type _ => '$' ∉ type.toList
  | initRole contract _ => '$' ∉ contract.toList

/-- The record type. -/
def owner? : Title → Option String
  | free _ | constant _ => none
  | role type _ | initRole type _ => some type

theorem constant_ne_of_head {name other : String} (h : other.toList.head? ≠ some '$') :
    ProcName.constant name ≠ other := by
  rintro rfl
  rw [ProcName.constant, String.toList_append] at h
  exact h rfl

/-- The name tells the title. -/
theorem text_inj {x y : Title} (hx : x.Plain) (hy : y.Plain) (h : x.text = y.text) : x = y := by
  cases x with
  | free name =>
    cases y with
    | free other => exact congrArg free h
    | constant other => exact absurd h.symm (constant_ne_of_head hx)
    | role _ _ | initRole _ _ => exact absurd h.symm (ProcName.ofType_ne_of_head hx)
  | constant name =>
    cases y with
    | free other => exact absurd h (constant_ne_of_head hy)
    | constant other => exact congrArg constant ((String.append_right_inj _).1 h)
    | role _ _ | initRole _ _ => exact absurd h.symm (ProcName.ofType_ne_constant hx)
  | role type does =>
    cases y with
    | free other => exact absurd h (ProcName.ofType_ne_of_head hy)
    | constant other => exact absurd h (ProcName.ofType_ne_constant hy)
    | role _ _ =>
      obtain ⟨rfl, rfl⟩ := ProcName.ofType_inj hx hy h
      rfl
    | initRole _ _ => exact absurd h (ProcName.ofType_ne_ofType_initType hx hy)
  | initRole contract does =>
    cases y with
    | free other => exact absurd h (ProcName.ofType_ne_of_head hy)
    | constant other => exact absurd h (ProcName.ofType_ne_constant hy)
    | role _ _ => exact absurd h.symm (ProcName.ofType_ne_ofType_initType hy hx)
    | initRole _ _ =>
      obtain ⟨rfl, rfl⟩ := ProcName.ofType_initType_inj hx hy h
      rfl

end Title

/-! ### Titles for a record type -/

namespace RecordType

/-- The roles of the procedures of a contract before those of its parameters. -/
def contractRoles : List String :=
  ["store", "load", "load_no_opcode", "contract_init", "contract_load", "contract_store"]

/-- The roles of the procedures of a struct or a message before those of its fields. -/
def recordRoles (message : Bool) : List String :=
  ["store", "load", "load_no_opcode"] ++ (if message then ["load_bounced"] else [])
    ++ ["store_cell", "store_opt", "load_cell", "load_opt"]

/-- The roles behind those of the fields. -/
def tupleRoles : List String := ["to_tuple", "as_optional", "not_null"]

/-- The roles of all procedures of a struct or a message. -/
def roles (t : RecordType) : List String :=
  recordRoles t.isMessage ++ (t.fields.map fun f => "get_" ++ f.name) ++ tupleRoles

/-- The titles of the procedures of a record type, in order. -/
def titles (t : RecordType) : List Title :=
  if t.isContract then
    contractRoles.map (.role t.name)
      ++ (if t.init.isSome then ["store", "load"] else []).map (.initRole t.name)
      ++ [.role t.name "init_data"]
  else t.roles.map (.role t.name)

/-- The titles of the constants of a contract that have values. -/
def constantTitles (t : RecordType) : List Title :=
  (t.constants.filter (·.value.isSome)).map fun c => .role t.name ("const_" ++ c.name)

variable {t : RecordType} {x : Title}

theorem owner?_of_mem_titles (h : x ∈ t.titles) : x.owner? = some t.name := by
  unfold titles at h
  split at h
  · simp only [List.mem_append, List.mem_singleton] at h
    rcases h with (h | h) | rfl
    · obtain ⟨role, -, rfl⟩ := List.mem_map.1 h
      rfl
    · split at h
      · obtain ⟨role, -, rfl⟩ := List.mem_map.1 h
        rfl
      · cases h
    · rfl
  · obtain ⟨role, -, rfl⟩ := List.mem_map.1 h
    rfl

theorem plain_of_mem_titles (hdollar : '$' ∉ t.name.toList) (h : x ∈ t.titles) : x.Plain := by
  have howner := owner?_of_mem_titles h
  cases x with
  | free _ | constant _ => cases howner
  | role _ _ | initRole _ _ => exact Option.some.inj howner ▸ hdollar

theorem owner?_of_mem_constantTitles (h : x ∈ t.constantTitles) : x.owner? = some t.name := by
  obtain ⟨c, -, rfl⟩ := List.mem_map.1 h
  rfl

/-- A text does not start with what another one starts with. -/
theorem append_ne {start rest other : String}
    (h : other.toList.take start.toList.length ≠ start.toList) : start ++ rest ≠ other := by
  rintro rfl
  simp at h

theorem nodup_roles (h : (t.fields.map (·.name)).Nodup) : t.roles.Nodup := by
  have hfixed : ∀ message : Bool, (recordRoles message ++ tupleRoles).Nodup
      ∧ ∀ role ∈ recordRoles message ++ tupleRoles,
        role.toList.take "get_".toList.length ≠ "get_".toList := by decide
  obtain ⟨hnodup, hother⟩ := hfixed t.isMessage
  have hperm : t.roles.Perm
      ((t.fields.map fun f => "get_" ++ f.name) ++ (recordRoles t.isMessage ++ tupleRoles)) := by
    rw [roles, List.append_assoc]
    exact List.perm_append_comm_assoc _ _ _
  rw [hperm.nodup_iff]
  refine List.Nodup.append ?_ hnodup ?_
  · have hget : Function.Injective ("get_" ++ ·) := fun _ _ => (String.append_right_inj _).1
    simpa [List.map_map, Function.comp_def] using h.map hget
  · intro role hrole hmem
    obtain ⟨f, -, rfl⟩ := List.mem_map.1 hrole
    exact append_ne (hother _ hmem) rfl

theorem nodup_titles_of_contract (h : t.isContract = true) : t.titles.Nodup := by
  unfold titles
  rw [if_pos h]
  split <;> simp [contractRoles]

theorem nodup_titles (h : (t.fields.map (·.name)).Nodup) : t.titles.Nodup := by
  by_cases hcontract : t.isContract = true
  · exact nodup_titles_of_contract hcontract
  · unfold titles
    rw [if_neg hcontract]
    exact (nodup_roles h).map fun _ _ heq => (Title.role.inj heq).2

theorem nodup_constantTitles (h : (t.constants.map (·.name)).Nodup) : t.constantTitles.Nodup := by
  have hnames := (List.filter_sublist (p := (·.value.isSome)) (l := t.constants)).map (·.name)
  have hinj : Function.Injective fun c => Title.role t.name ("const_" ++ c) := fun _ _ heq =>
    (String.append_right_inj _).1 (Title.role.inj heq).2
  simpa [constantTitles, List.map_map, Function.comp_def] using (h.sublist hnames).map hinj

/-- The roles among the titles. -/
theorem role_mem_titles {type role : String} (h : Title.role type role ∈ t.titles) :
    role ∈ contractRoles ++ ["init_data"] ∨ role ∈ recordRoles t.isMessage ++ tupleRoles
      ∨ ∃ f ∈ t.fields, role = "get_" ++ f.name := by
  unfold titles at h
  split at h
  · simp only [List.mem_append, List.mem_singleton] at h ⊢
    rcases h with (h | h) | h
    · obtain ⟨_, hrole, heq⟩ := List.mem_map.1 h
      exact .inl (.inl ((Title.role.inj heq).2 ▸ hrole))
    · obtain ⟨_, -, heq⟩ := List.mem_map.1 h
      cases heq
    · exact .inl (.inr (Title.role.inj h).2)
  · obtain ⟨_, hrole, heq⟩ := List.mem_map.1 h
    obtain rfl := (Title.role.inj heq).2
    rw [roles, List.append_assoc, List.mem_append, List.mem_append] at hrole
    rcases hrole with hrole | hrole | hrole
    · exact .inr (.inl (List.mem_append_left _ hrole))
    · obtain ⟨f, hf, rfl⟩ := List.mem_map.1 hrole
      exact .inr (.inr ⟨f, hf, rfl⟩)
    · exact .inr (.inl (List.mem_append_right _ hrole))

/-- No procedure of a type has the title of a constant. -/
theorem not_mem_titles {type c : String} : Title.role type ("const_" ++ c) ∉ t.titles := by
  have hcontract : ∀ role ∈ contractRoles ++ ["init_data"],
      role.toList.take "const_".toList.length ≠ "const_".toList := by decide
  have hrecord : ∀ message, ∀ role ∈ recordRoles message ++ tupleRoles,
      role.toList.take "const_".toList.length ≠ "const_".toList := by decide
  intro h
  rcases role_mem_titles h with hrole | hrole | ⟨f, -, heq⟩
  · exact append_ne (hcontract _ hrole) rfl
  · exact append_ne (hrecord _ _ hrole) rfl
  · have hchars := congrArg (·.toList.head?) heq
    simp [String.toList_append] at hchars

end RecordType

/-- Titles of several record types, each of which has different ones. -/
theorem Title.nodup_flatMap {ts : List RecordType} {titles : RecordType → List Title}
    (hnames : (ts.map (·.name)).Nodup) (htitles : ∀ t ∈ ts, (titles t).Nodup)
    (howner : ∀ t ∈ ts, ∀ x ∈ titles t, x.owner? = some t.name) : (ts.flatMap titles).Nodup := by
  refine List.nodup_flatMap.2 ⟨htitles, ?_⟩
  refine List.Pairwise.imp_of_mem (fun {t u} ht hu hne x hx hx' => hne ?_)
    (List.pairwise_map.1 hnames)
  exact Option.some.inj ((howner t ht x hx).symm.trans (howner u hu x hx'))

/-! ### Titles of a store -/

/-- The titles of the constants that have values. -/
def TypeStore.constantTitles (s : TypeStore) : List Title :=
  (s.constants.filter (·.value.isSome)).map (.constant ·.name)
    ++ (s.types.filter (·.isContract)).flatMap RecordType.constantTitles

theorem TypeStore.mem_constantTitles {s : TypeStore} {x : Title} (h : x ∈ s.constantTitles) :
    (∃ c ∈ s.constants, x = .constant c.name)
      ∨ ∃ t ∈ s.types, ∃ c, x = .role t.name ("const_" ++ c) := by
  rcases List.mem_append.1 h with h | h
  · obtain ⟨c, hc, rfl⟩ := List.mem_map.1 h
    exact .inl ⟨c, (List.mem_filter.1 hc).1, rfl⟩
  · obtain ⟨t, ht, h⟩ := List.mem_flatMap.1 h
    obtain ⟨c, -, rfl⟩ := List.mem_map.1 h
    exact .inr ⟨t, (List.mem_filter.1 ht).1, c.name, rfl⟩

theorem TypeStore.nodup_constantTitles {s : TypeStore} (h : s.DistinctConstants) :
    s.constantTitles.Nodup := by
  have hglobals := (List.filter_sublist (p := (·.value.isSome)) (l := s.constants)).map (·.name)
  have htypes := (List.filter_sublist (p := (·.isContract)) (l := s.types)).map (·.name)
  refine List.Nodup.append ?_ ?_ ?_
  · have hinj : Function.Injective Title.constant := fun _ _ => Title.constant.inj
    simpa [List.map_map, Function.comp_def] using (h.globals.sublist hglobals).map hinj
  · refine Title.nodup_flatMap (s.types_distinct.sublist htypes) (fun t ht => ?_) fun _ _ _ =>
      RecordType.owner?_of_mem_constantTitles
    obtain ⟨ht, hcontract⟩ := List.mem_filter.1 ht
    exact RecordType.nodup_constantTitles (h.own t ht hcontract)
  · intro x hx hx'
    obtain ⟨c, -, rfl⟩ := List.mem_map.1 hx
    obtain ⟨t, -, hx'⟩ := List.mem_flatMap.1 hx'
    cases RecordType.owner?_of_mem_constantTitles hx'

/-- The constants of a store share no title with its record types. -/
theorem TypeStore.disjoint_titles {s : TypeStore} {ts : List RecordType} :
    s.constantTitles.Disjoint (ts.flatMap RecordType.titles) := by
  intro x hx hx'
  obtain ⟨t, -, hx'⟩ := List.mem_flatMap.1 hx'
  rcases mem_constantTitles hx with ⟨c, -, rfl⟩ | ⟨t', -, c, rfl⟩
  · cases RecordType.owner?_of_mem_titles hx'
  · exact RecordType.not_mem_titles hx'

namespace Analysis

variable {s : TypeStore} {ev : Evaluator} {a : Analysis}

/-- The titles of all procedures, in order. -/
def titles (a : Analysis) : List Title :=
  (Stdlib.procedures.map fun p => Title.free p.name) ++ a.store.constantTitles
    ++ (a.orderedTypes.filter (·.kind.hasLayout)).flatMap RecordType.titles
    ++ [.free "get_abi_link"]

/-- The titles of procedures that nothing declared is behind. -/
def freeTitles : List Title :=
  (Stdlib.procedures.map fun p => Title.free p.name) ++ [.free "get_abi_link"]

theorem exists_of_mem_freeTitles {x : Title} (h : x ∈ freeTitles) : ∃ name, x = .free name := by
  rcases List.mem_append.1 h with h | h
  · obtain ⟨p, -, rfl⟩ := List.mem_map.1 h
    exact ⟨p.name, rfl⟩
  · exact ⟨_, List.mem_singleton.1 h⟩

theorem nodup_freeTitles : freeTitles.Nodup := by
  simp [freeTitles, Stdlib.procedures, Stdlib.notNull, Stdlib.storeAddress, Stdlib.loadAddress,
    Stdlib.makeAddress, Stdlib.textToCell, ProcName.notNull, ProcName.storeAddress,
    ProcName.loadAddress, ProcName.makeAddress, ProcName.textToCell]

theorem plain_titles (hplain : a.store.PlainNames) {x : Title} (hx : x ∈ a.titles) : x.Plain := by
  simp only [titles, List.mem_append, List.mem_singleton] at hx
  rcases hx with ((hx | hx) | hx) | rfl
  · obtain ⟨p, hp, rfl⟩ := List.mem_map.1 hx
    exact (Stdlib.plain_of_mem_procedures hp).1
  · rcases TypeStore.mem_constantTitles hx with ⟨c, hc, rfl⟩ | ⟨t, ht, c, rfl⟩
    · exact hplain.constants c hc
    · exact hplain.types t ht
  · obtain ⟨t, ht, hx⟩ := List.mem_flatMap.1 hx
    have hdollar := hplain.types t (mem_types_of_mem_orderedTypes (List.mem_filter.1 ht).1)
    exact RecordType.plain_of_mem_titles hdollar hx
  · exact (by decide : "get_abi_link".toList.head? ≠ some '$')

theorem nodup_titles (h : s.analyze ev = .ok a) (hdistinct : a.store.DistinctFields)
    (hconstants : a.store.DistinctConstants) : a.titles.Nodup := by
  have hordered : ((a.orderedTypes.filter (·.kind.hasLayout)).map (·.name)).Nodup := by
    refine List.Nodup.sublist (List.filter_sublist.map RecordType.name) ?_
    rw [((TypeStore.orderedTypes_perm h).map (·.name)).nodup_iff]
    exact a.store.types_distinct
  have htypes : ((a.orderedTypes.filter (·.kind.hasLayout)).flatMap RecordType.titles).Nodup := by
    refine Title.nodup_flatMap hordered (fun t ht => ?_) fun _ _ _ =>
      RecordType.owner?_of_mem_titles
    have hmem := mem_types_of_mem_orderedTypes (List.mem_filter.1 ht).1
    exact RecordType.nodup_titles (hdistinct t hmem)
  have hdeclared := (TypeStore.nodup_constantTitles hconstants).append htypes
    TypeStore.disjoint_titles
  have hperm : a.titles.Perm (freeTitles ++ (a.store.constantTitles
      ++ (a.orderedTypes.filter (·.kind.hasLayout)).flatMap RecordType.titles)) := by
    simp only [titles, freeTitles, List.append_assoc]
    refine List.Perm.append_left _ ?_
    rw [← List.append_assoc]
    exact List.perm_append_comm
  rw [hperm.nodup_iff]
  refine nodup_freeTitles.append hdeclared fun x hx hx' => ?_
  obtain ⟨name, rfl⟩ := exists_of_mem_freeTitles hx
  rcases List.mem_append.1 hx' with hx' | hx'
  · rcases TypeStore.mem_constantTitles hx' with ⟨c, -, heq⟩ | ⟨t, -, c, heq⟩ <;> cases heq
  · obtain ⟨t, -, hx'⟩ := List.mem_flatMap.1 hx'
    cases RecordType.owner?_of_mem_titles hx'

end Analysis

/-! ## Programs of procedures -/

/-- The programs that are generated for a layout. -/
def Layout.programs (l : Layout) : List Program :=
  match l.id with
  | .full _ => [l.serializer, l.parser .withHeader, l.parser .noHeader]
  | .bounced _ => [l.parser .bounced]
  | .init _ => [l.serializer, l.parser .withHeader]

namespace Analysis

variable {s : TypeStore} {ev : Evaluator} {a : Analysis} {t : RecordType}

/-- The procedures have the titles, and the programs of the layouts under the ids. -/
structure Generates (a : Analysis) (ps : List Procedure) (titles : List Title)
    (ids : List LayoutId) : Prop where
  names : ps.map (·.name) = titles.map Title.text
  programs : ∃ ls, List.Forall₂ (fun id l => a.layouts.get? id = some l) ids ls
    ∧ ps.filterMap (·.program) = ls.flatMap Layout.programs

namespace Generates

variable {ps ps' : List Procedure} {xs xs' : List Title} {ids ids' : List LayoutId}

theorem append (h : a.Generates ps xs ids) (h' : a.Generates ps' xs' ids') :
    a.Generates (ps ++ ps') (xs ++ xs') (ids ++ ids') := by
  obtain ⟨ls, hls, hprograms⟩ := h.programs
  obtain ⟨ls', hls', hprograms'⟩ := h'.programs
  refine ⟨by rw [List.map_append, List.map_append, h.names, h'.names], ls ++ ls', ?_, ?_⟩
  · exact List.rel_append hls hls'
  · rw [List.filterMap_append, hprograms, hprograms', List.flatMap_append]

theorem of_plain (hnames : ps.map (·.name) = xs.map Title.text)
    (hplain : ∀ p ∈ ps, p.program = none) : a.Generates ps xs [] :=
  ⟨hnames, [], .nil, List.filterMap_eq_nil_iff.2 hplain⟩

theorem of_layout {id : LayoutId} {l : Layout} (hl : a.layouts.get? id = some l)
    (hnames : ps.map (·.name) = xs.map Title.text)
    (hprograms : ps.filterMap (·.program) = l.programs) : a.Generates ps xs [id] :=
  ⟨hnames, [l], .cons hl .nil, by simpa using hprograms⟩

theorem flatMap {ts : List RecordType} {f : RecordType → List Procedure}
    {titles : RecordType → List Title}
    (h : ∀ t ∈ ts, t.kind.hasLayout = true → a.Generates (f t) (titles t) t.layoutIds) :
    a.Generates ((ts.filter (·.kind.hasLayout)).flatMap f)
      ((ts.filter (·.kind.hasLayout)).flatMap titles) (ts.flatMap RecordType.layoutIds) := by
  induction ts with
  | nil => exact of_plain rfl (by simp)
  | cons t ts ih =>
    obtain ⟨ht, hts⟩ := List.forall_mem_cons.1 h
    by_cases hkind : t.kind.hasLayout = true
    · rw [List.filter_cons, if_pos hkind]
      exact (ht hkind).append (ih hts)
    · rw [List.filter_cons, if_neg hkind, List.flatMap_cons, RecordType.layoutIds, if_neg hkind]
      exact ih hts

/-- A procedure with the name for a title was generated for the title. -/
theorem mem_of_name (h : a.Generates ps xs ids) (hplain : ∀ x ∈ xs, x.Plain) {x : Title}
    (hx : x.Plain) {p : Procedure} (hp : p ∈ ps) (hname : p.name = x.text) : x ∈ xs := by
  obtain ⟨y, hy, heq⟩ := List.mem_map.1 (h.names ▸ List.mem_map_of_mem hp)
  rwa [← Title.text_inj (hplain y hy) hx (heq.trans hname)]

end Generates

/-! ### Procedures of a record type -/

/-- The layouts of a record type are those that it is given. -/
theorem exists_layout_iff (h : s.analyze ev = .ok a) (ht : t ∈ a.store.types) (id : LayoutId)
    (hid : id.typeName = t.name) : (∃ l, a.layouts.get? id = some l) ↔ id ∈ t.layoutIds := by
  refine ⟨fun ⟨l, hl⟩ => ?_, ((TypeStore.analyze_ok h).serves t ht).has⟩
  obtain ⟨⟨u, hu, hmem⟩, -⟩ := (TypeStore.get?_layouts h).1 hl
  have hname : u.name = t.name := by
    rw [← hid]
    obtain ⟨-, rfl | ⟨-, rfl⟩ | ⟨-, rfl⟩⟩ := RecordType.mem_layoutIds hmem <;> rfl
  rwa [List.inj_on_of_nodup_map a.store.types_distinct hu ht hname] at hmem

variable (hid : a.Identified)

include hid

theorem generates_full {l : Layout} (hl : a.layouts.get? (.full t.name) = some l) :
    a.Generates (a.fullProcedures t l)
      (["store", "load", "load_no_opcode"].map (.role t.name)) [.full t.name] := by
  refine .of_layout hl ?_ ?_
  · simp only [fullProcedures, List.map_cons, List.map_nil,
      Layout.name_serializerProcedure (hid.full hl), Layout.name_parserProcedure (hid.full hl)]
    rfl
  · rw [Layout.programs, hid _ _ hl]
    rfl

theorem generates_bounced (h : s.analyze ev = .ok a) (ht : t ∈ a.store.types)
    (hkind : t.kind.hasLayout = true) :
    a.Generates (a.bouncedProcedures t)
      ((if t.isMessage then ["load_bounced"] else []).map (.role t.name))
      (if t.isMessage then [.bounced t.name] else []) := by
  have hiff := exists_layout_iff h ht (.bounced t.name) rfl
  unfold bouncedProcedures
  by_cases hmessage : t.isMessage = true
  · obtain ⟨left, hleft⟩ := hiff.2 (by simp [RecordType.layoutIds, hkind, hmessage])
    rw [hleft, if_pos hmessage, if_pos hmessage]
    refine .of_layout hleft ?_ ?_
    · simp only [List.map_cons, List.map_nil, Layout.name_parserProcedure (hid.bounced hleft)]
      rfl
    · rw [Layout.programs, hid _ _ hleft]
      rfl
  · rw [if_neg hmessage, if_neg hmessage]
    split
    · next left hleft =>
      obtain ⟨-, heq | ⟨hm, -⟩ | ⟨-, heq⟩⟩ := RecordType.mem_layoutIds (hiff.1 ⟨left, hleft⟩)
      · cases heq
      · exact absurd hm hmessage
      · cases heq
    · exact .of_plain rfl (by simp)

theorem generates_init (h : s.analyze ev = .ok a) (ht : t ∈ a.store.types)
    (hkind : t.kind.hasLayout = true) (hcontract : t.isContract = true) :
    a.Generates (a.initProcedures t)
      ((if t.init.isSome then ["store", "load"] else []).map (.initRole t.name))
      (if t.init.isSome then [.init t.name] else []) := by
  unfold initProcedures
  cases hinit : t.init with
  | some fields =>
    obtain ⟨params, hparams⟩ := (exists_layout_iff h ht (.init t.name) rfl).2
      (by simp [RecordType.layoutIds, hkind, hcontract, hinit])
    rw [hparams]
    refine .of_layout hparams ?_ ?_
    · simp only [List.map_cons, List.map_nil, Layout.name_serializerProcedure (hid.init hparams),
        Layout.name_parserProcedure (hid.init hparams)]
      rfl
    · rw [Layout.programs, hid _ _ hparams]
      rfl
  | none =>
    cases a.layouts.get? (.init t.name) <;> exact .of_plain rfl (by simp)

omit hid in
theorem generates_accessors (a : Analysis) (t : RecordType) (sec : Section) :
    a.Generates (accessorProcedures a.store t.name t.fields sec)
      (((t.fields.map fun f => "get_" ++ f.name) ++ RecordType.tupleRoles).map (.role t.name))
      [] := by
  refine .of_plain ?_ fun p hp => ?_
  · rw [accessorProcedures, List.map_append, List.map_append, List.map_append]
    simp only [List.map_map]
    rfl
  · rcases List.mem_append.1 hp with hp | hp
    · obtain ⟨f, -, rfl⟩ := List.mem_map.1 hp
      rfl
    · simp only [List.mem_cons, List.not_mem_nil, or_false] at hp
      rcases hp with rfl | rfl | rfl <;> rfl

omit hid in
theorem generates_constants (a : Analysis) :
    a.Generates a.store.constantProcedures a.store.constantTitles [] := by
  refine .of_plain ?_ fun p hp => (TypeStore.plain_of_mem_constantProcedures hp).2
  -- constants without values have neither
  have hvalued (cs : List Constant) (name : Constant → String) (sec : Section) :
      (cs.filterMap fun c => a.store.constantProcedure? (name c) sec c).map (·.name) =
        (cs.filter (·.value.isSome)).map name := by
    induction cs with
    | nil => rfl
    | cons c cs ih =>
      rw [List.filterMap_cons, List.filter_cons, TypeStore.constantProcedure?]
      cases hv : c.value with
      | none => exact ih
      | some v => exact congrArg (name c :: ·) ih
  rw [TypeStore.constantProcedures, TypeStore.constantTitles, List.map_append, List.map_append,
    List.map_flatMap, List.map_flatMap]
  simp only [hvalued, RecordType.constantTitles, List.map_map]
  rfl

omit hid in
theorem generates_contractProcedures (a : Analysis) (t : RecordType) :
    a.Generates (a.store.contractProcedures t)
      (["contract_init", "contract_load", "contract_store"].map (.role t.name)) [] := by
  refine .of_plain rfl fun p hp => ?_
  simp only [TypeStore.contractProcedures, List.mem_cons, List.not_mem_nil, or_false] at hp
  rcases hp with rfl | rfl | rfl <;> rfl

omit hid in
theorem generates_wrappers (a : Analysis) (type tensor : String) (sec : Section) :
    a.Generates (wrapperProcedures type tensor sec)
      (["store_cell", "store_opt", "load_cell", "load_opt"].map (.role type)) [] := by
  refine .of_plain rfl fun p hp => ?_
  simp only [wrapperProcedures, List.mem_cons, List.not_mem_nil, or_false] at hp
  rcases hp with rfl | rfl | rfl | rfl <;> rfl

theorem generates_typeProcedures (h : s.analyze ev = .ok a) (ht : t ∈ a.store.types)
    (hkind : t.kind.hasLayout = true) :
    a.Generates (a.typeProcedures t) t.titles t.layoutIds := by
  obtain ⟨l, hl⟩ := (exists_layout_iff h ht (.full t.name) rfl).2
    (RecordType.full_mem_layoutIds hkind)
  have hfull := generates_full hid hl
  unfold typeProcedures RecordType.titles RecordType.layoutIds
  rw [hl, if_pos hkind]
  dsimp only
  by_cases hcontract : t.isContract = true
  · have hmessage : ¬t.isMessage = true := by
      have : t.kind = .contract := by simpa [RecordType.isContract] using hcontract
      simp [RecordType.isMessage, this]
    have hdata : a.Generates [a.store.initDataProcedure t] [.role t.name "init_data"] [] :=
      .of_plain rfl (by simp [TypeStore.initDataProcedure])
    have hall := ((hfull.append (generates_contractProcedures a t)).append
      (generates_init hid h ht hkind hcontract)).append hdata
    simpa [hcontract, hmessage, RecordType.contractRoles] using hall
  · have hall := ((hfull.append (generates_bounced hid h ht hkind)).append
      (generates_wrappers a t.name (a.store.tensor t.fields) (.type t.name))).append
      (generates_accessors a t (.type t.name))
    simpa [hcontract, RecordType.roles, RecordType.recordRoles] using hall

omit hid in
theorem generates_stdlib (a : Analysis) : a.Generates Stdlib.procedures
    (Stdlib.procedures.map fun p => Title.free p.name) [] :=
  .of_plain (by rw [List.map_map]; rfl) fun _ hp => (Stdlib.plain_of_mem_procedures hp).2

omit hid in
theorem generates_link (a : Analysis) (link : String) :
    a.Generates [linkProcedure link] [.free "get_abi_link"] [] :=
  .of_plain rfl (by simp [linkProcedure])

theorem generates_procedures (h : s.analyze ev = .ok a) (link : String) :
    a.Generates (a.procedures link) a.titles (a.orderedTypes.flatMap RecordType.layoutIds) := by
  have htypes : ∀ t ∈ a.orderedTypes, t.kind.hasLayout = true →
      a.Generates (a.typeProcedures t) t.titles t.layoutIds := fun t ht hkind =>
    generates_typeProcedures hid h (mem_types_of_mem_orderedTypes ht) hkind
  simpa [titles, procedures] using
    (((generates_stdlib a).append (generates_constants a)).append (.flatMap htypes)).append
      (generates_link a link)

end Analysis

/-! ## Complete programs -/

theorem TypeStore.distinctConstants_analyzed {s : TypeStore} {ev : Evaluator} {a : Analysis}
    (h : s.analyze ev = .ok a) (hconstants : s.DistinctConstants) : a.store.DistinctConstants := by
  obtain ⟨hvalues, -, hsigned, -⟩ := analyze_eq_ok.1 h
  obtain ⟨-, htypes, -⟩ := withSignatures_eq_ok hsigned
  refine ⟨?_, fun u hu hcontract => ?_⟩
  · rw [(analyze_ok h).outline.constants]
    exact hconstants.globals
  · -- a record type is evaluated, and then signed
    rw [htypes, types_evaluate hvalues, List.map_map] at hu
    obtain ⟨t, ht, rfl⟩ := List.mem_map.1 hu
    have hevaluated : ∀ t, (signed (s.evaluate ev).1 t).constants = t.constants
        ∧ (signed (s.evaluate ev).1 t).isContract = t.isContract := by
      intro t
      unfold signed
      split <;> exact ⟨rfl, rfl⟩
    obtain ⟨hsame, hkind⟩ := hevaluated (t.evaluate ev a.constants).1
    rw [Function.comp_apply] at hcontract ⊢
    rw [hsame, RecordType.names_constants_evaluate]
    refine hconstants.own t ht ?_
    have houtline : (t.evaluate ev a.constants).1.kind = t.kind :=
      congrArg (·.2.1) (t.outline_evaluate ev a.constants)
    rwa [hkind, RecordType.isContract, houtline] at hcontract

namespace Analysis

variable {s : TypeStore} {ev : Evaluator} {a : Analysis}

/-- Programs that are named as their procedures are as different as these. -/
theorem names_programs_sublist {ps : List Procedure}
    (hnamed : ∀ q ∈ ps, ∀ p, q.program = some p → p.name = q.name) :
    ((ps.filterMap (·.program)).map (·.name)).Sublist (ps.map (·.name)) := by
  induction ps with
  | nil => exact .slnil
  | cons q ps ih =>
    obtain ⟨hq, hps⟩ := List.forall_mem_cons.1 hnamed
    rw [List.filterMap_cons]
    cases hprogram : q.program with
    | none => exact (ih hps).cons _
    | some p =>
      rw [List.map_cons, List.map_cons, hq p hprogram]
      exact (ih hps).cons_cons _

theorem nodup_names_procedures (h : s.analyze ev = .ok a) (hplain : s.PlainNames)
    (hdistinct : s.DistinctFields) (hconstants : s.DistinctConstants) (link : String) :
    ((a.procedures link).map (·.name)).Nodup := by
  have ha := TypeStore.analyze_ok h
  rw [(generates_procedures ha.identified h link).names]
  refine (List.nodup_map_iff_inj_on ?_).2 fun x hx y hy => ?_
  · exact nodup_titles h (ha.distinctFields hdistinct)
      (TypeStore.distinctConstants_analyzed h hconstants)
  · have hplain := ha.plainNames hplain
    exact Title.text_inj (plain_titles hplain hx) (plain_titles hplain hy)

end Analysis

namespace Artifact

variable {s : TypeStore} {o : CompileOptions} {tools : Toolchain} {art : Artifact}

/--
Every procedure of a compiled store is registered when its turn comes. The programs are those of the
layouts that the record types are given, in dependency order, each under its own name.
-/
theorem programs_complete (hart : s.compile o tools = .ok art) (hplain : s.PlainNames)
    (hdistinct : s.DistinctFields) (hconstants : s.DistinctConstants) :
    ∃ a, s.analyze tools.evaluator = .ok a
      ∧ a.store.SameOutline s ∧ a.orderedTypes.Perm a.store.types
      ∧ a.orderedTypes.map (·.name) = a.order
      ∧ (∀ before p after, a.procedures art.abiLink = before ++ p :: after →
        (((({} : Registry).addGlobal Stdlib.contextGlobal).addAll before).add p).1 = true)
      ∧ ∃ ls, List.Forall₂ (fun id l => a.layouts.get? id = some l)
          (a.orderedTypes.flatMap RecordType.layoutIds) ls
        ∧ art.programs = (ls.flatMap Layout.programs).map fun p => (p.name, p) := by
  obtain ⟨a, h, hart⟩ := TypeStore.exists_artifact hart
  have ha := TypeStore.analyze_ok h
  have hnames := Analysis.nodup_names_procedures h hplain hdistinct hconstants art.abiLink
  refine ⟨a, h, ha.outline, TypeStore.orderedTypes_perm h, TypeStore.names_orderedTypes h, ?_, ?_⟩
  · intro before p after hps
    exact Registry.add_addAll rfl (hps ▸ hnames)
  · obtain ⟨ls, hls, hprograms⟩ :=
      (Analysis.generates_procedures ha.identified h art.abiLink).programs
    refine ⟨ls, hls, ?_⟩
    have hregistered : (a.registry art.abiLink).procedures.filterMap (·.2.program) =
        ls.flatMap Layout.programs := by
      rw [Analysis.registry, Registry.procedures_addAll rfl hnames, List.filterMap_map, ← hprograms]
      rfl
    rw [Analysis.programs_of_artifact hart, Registry.programs, hregistered]
    refine ProgramSet.ofList_eq ?_
    refine List.Nodup.sublist ?_ hnames
    rw [← hprograms]
    exact Analysis.names_programs_sublist fun q hq _ =>
      Analysis.name_of_program ha.identified (ha.plainNames hplain) hq

/-- A contract with parameters, and constants of the same name inside and outside of it. -/
def sampleMint : TypeStore where
  types :=
    [{ name := "Mint", kind := .message
       fields := [{ name := "amount", type := .int .coins }, { name := "note", type := .string }] },
     { name := "Coin", kind := .contract
       fields := [{ name := "owner", type := .address }, { name := "last", type := .record "Mint" }]
       init := some [{ name := "seed", type := .int (.uint 32) }]
       constants := [{ name := "LIMIT", type := .int (.uint 8), expr := .int 5 }] }]
  constants :=
    [{ name := "LIMIT", type := .int (.uint 8), expr := .int 7 },
     { name := "OPEN", type := .bool, expr := .bool true }]
  types_distinct := by decide

theorem programs_complete_sample : ∃ art a ls, sampleMint.compile { entry := "Coin" } = .ok art
    ∧ sampleMint.analyze Expr.evaluate = .ok a
    ∧ List.Forall₂ (fun id l => a.layouts.get? id = some l)
      (a.orderedTypes.flatMap RecordType.layoutIds) ls
    ∧ art.programs = (ls.flatMap Layout.programs).map fun p => (p.name, p) := by
  have hplain : sampleMint.PlainNames := ⟨by decide, by decide⟩
  have hdistinct : sampleMint.DistinctFields := by
    unfold TypeStore.DistinctFields
    decide
  have hconstants : sampleMint.DistinctConstants := ⟨by decide, by decide⟩
  obtain ⟨art, hart⟩ : ∃ art, sampleMint.compile { entry := "Coin" } = .ok art :=
    exists_of_isOk (by decide +kernel)
  obtain ⟨a, ha, -, -, -, -, ls, hls, hprograms⟩ :=
    programs_complete hart hplain hdistinct hconstants
  exact ⟨art, a, ls, hart, ha, hls, hprograms⟩

end Artifact
end CellPack
