import Mathlib
import CellPack.Proofs.Files
import CellPack.Proofs.Registration
/-!
# Calls between procedures

Every procedure that is called in an output is in the output (`Analysis.artifact_closed`). The code
for a value calls helpers, and procedures of the records that the type of the value mentions. Those
are structs or messages, so they have wrappers and accessors. A contract calls its own procedures,
and those of its parameters only if it declares some.
-/

namespace CellPack

/-! ## Lines -/

namespace Line

variable {known : String → Prop} {l l' : Line}

/-- All procedures that the line calls are known. -/
def CallsOnly (known : String → Prop) (l : Line) : Prop := ∀ name ∈ l.calls, known name

@[simp] theorem callsOnly_append :
    CallsOnly known (l ++ l') ↔ CallsOnly known l ∧ CallsOnly known l' := by
  unfold CallsOnly calls
  rw [List.filterMap_append]
  exact List.forall_mem_append

@[simp] theorem callsOnly_nil : CallsOnly known [] := nofun

@[simp] theorem callsOnly_text_cons (s : String) :
    CallsOnly known (.text s :: l) ↔ CallsOnly known l := Iff.rfl

@[simp] theorem callsOnly_plain (s : String) : CallsOnly known (.plain s) := nofun

@[simp] theorem callsOnly_around (before name after : String) :
    CallsOnly known (.around before name after) ↔ known name := List.forall_mem_singleton

end Line

/-! ## Code for values -/

namespace FieldOp

/-- The records that the operation writes and reads. -/
def records : FieldOp → List String
  | record name _ => [name]
  | optional inner _ => inner.records
  | _ => []

end FieldOp

/-- They are mentioned in the type that the operation is for. -/
theorem FieldType.Lowers.records_subset {type : FieldType} {op : FieldOp} (h : type.Lowers op) :
    op.records ⊆ type.mentioned := by
  induction h with
  | record name boxed => exact List.Subset.refl _
  | optional _ _ _ ih => exact ih
  | _ => exact List.nil_subset _

/-- The helpers are known, and so are the procedures of records. -/
structure Library (known records : String → Prop) : Prop where
  helper : ∀ p ∈ Stdlib.procedures, known p.name
  record : ∀ name, records name → ∀ role ∈ RecordType.recordRoles false ++ RecordType.tupleRoles,
    known (ProcName.ofType name role)

/-- The records that an instruction writes or reads. -/
def Instr.records : Instr → List String
  | store _ _ op | load _ _ op => op.records
  | _ => []

namespace Body

open Line

variable {known records : String → Prop}

theorem callsOnly_destructure {fields : List String} {source : Line}
    (h : source.CallsOnly known) : ∀ l ∈ destructure fields source, CallsOnly known l := by
  unfold destructure
  split <;> simp [h]

section
variable (lib : Library known records)

include lib

theorem callsOnly_role {name : String} (hname : records name) {role : String}
    (hrole : role ∈ RecordType.recordRoles false ++ RecordType.tupleRoles) (before after : String) :
    CallsOnly known (.around before (ProcName.ofType name role) after) :=
  (callsOnly_around _ _ _).2 (lib.record name hname role hrole)

theorem callsOnly_store (x : String) {op : FieldOp} (b : String)
    (h : ∀ name ∈ op.records, records name) : (store x op b).CallsOnly known := by
  fun_induction store x op b with
  | case3 b => exact (callsOnly_around _ _ _).2 (lib.helper Stdlib.storeAddress (by decide))
  | case5 kind b =>
    cases kind with
    | string => exact (callsOnly_around _ _ _).2 (lib.helper Stdlib.textToCell (by decide))
    | cell | slice | builder => exact callsOnly_plain _
  -- records in place, in cells of their own, and optional
  | case7 name b | case8 name b | case9 name b =>
    exact callsOnly_role lib (h name (List.mem_singleton_self name)) (by decide) _ _
  | case10 inner b ih | case11 inner b _ ih => simp [ih h]
  | _ => exact callsOnly_plain _

theorem callsOnly_load (s : String) {op : FieldOp} (h : ∀ name ∈ op.records, records name) :
    (load s op).CallsOnly known := by
  fun_induction load s op with
  | case3 => exact (callsOnly_around _ _ _).2 (lib.helper Stdlib.loadAddress (by decide))
  | case7 name | case8 name | case9 name =>
    exact callsOnly_role lib (h name (List.mem_singleton_self name)) (by decide) _ _
  | case10 inner _ _ ih => simp [ih h]
  | _ => exact callsOnly_plain _

theorem callsOnly_storeLine {i : Instr} (h : ∀ name ∈ i.records, records name) :
    ∀ l ∈ storeLine i, CallsOnly known l := by
  cases i with
  | store cell field op =>
    have hstore := callsOnly_store lib (value field) (builder cell) h
    simp [storeLine, hstore]
  | _ => simp [storeLine]

theorem callsOnly_loadInstr {i : Instr} (h : ∀ name ∈ i.records, records name) :
    ∀ l ∈ loadInstr i, CallsOnly known l := by
  cases i with
  | load cell field op =>
    have hload := callsOnly_load lib (slice cell) h
    unfold loadInstr loadLines
    dsimp only
    split
    · next inner hboxed =>
      have hsame : inner.records = op.records := by
        unfold boxedInner? at hboxed
        split at hboxed <;> cases hboxed
        rfl
      have hinner : (load ("sc'" ++ field) inner).CallsOnly known :=
        callsOnly_load lib _ fun name hname => h name (show name ∈ op.records from hsame ▸ hname)
      simp [hinner]
    · simp [hload]
  | _ => simp [loadInstr]

end

end Body

/-! ## Programs -/

/-- The records in the cells of a chain. -/
def LayoutCell.records (cells : List LayoutCell) : List String :=
  (cells.flatMap (·.placements)).flatMap (·.op.records)

/-- The records that the fields of a layout are. -/
def Layout.records (l : Layout) : List String := LayoutCell.records l.cells

namespace Layout

theorem records_cons (c : LayoutCell) (cells : List LayoutCell) : LayoutCell.records (c :: cells) =
    c.placements.flatMap (·.op.records) ++ LayoutCell.records cells := by
  rw [LayoutCell.records, List.flatMap_cons, List.flatMap_append, LayoutCell.records]

/-- Instructions on the fields of a cell are on records among those of the chain. -/
theorem records_subset_of_mem {c : LayoutCell} {cells : List LayoutCell} {i : Instr}
    {instr : Placement → Instr} (hinstr : ∀ p, (instr p).records = p.op.records)
    (hi : i ∈ c.placements.map instr) : i.records ⊆ LayoutCell.records (c :: cells) := by
  obtain ⟨p, hp, rfl⟩ := List.mem_map.1 hi
  intro name hname
  rw [records_cons, List.mem_append, List.mem_flatMap]
  exact .inl ⟨p, hp, hinstr p ▸ hname⟩

theorem records_subset_cons {c : LayoutCell} {cells : List LayoutCell} {names : List String}
    (h : names ⊆ LayoutCell.records cells) : names ⊆ LayoutCell.records (c :: cells) := by
  rw [records_cons]
  exact List.subset_append_of_subset_right _ h

theorem records_storeCells (cells : List LayoutCell) : ∀ n,
    ∀ i ∈ storeCells n cells, i.records ⊆ LayoutCell.records cells := by
  induction cells with
  | nil => exact fun _ _ h => nomatch h
  | cons c cells ih =>
    intro n i hi
    unfold storeCells at hi
    dsimp only at hi
    split at hi
    · exact records_subset_of_mem (fun _ => rfl) hi
    · simp only [List.mem_append, List.mem_cons, List.not_mem_nil, or_false] at hi
      rcases hi with (hi | rfl | hi) | rfl
      · exact records_subset_of_mem (fun _ => rfl) hi
      · exact List.nil_subset _
      · exact records_subset_cons (ih (n + 1) i hi)
      · exact List.nil_subset _

theorem records_loadCells (cells : List LayoutCell) : ∀ n,
    ∀ i ∈ loadCells n cells, i.records ⊆ LayoutCell.records cells := by
  induction cells with
  | nil => exact fun _ _ h => nomatch h
  | cons c cells ih =>
    intro n i hi
    unfold loadCells at hi
    dsimp only at hi
    split at hi
    · exact records_subset_of_mem (fun _ => rfl) hi
    · simp only [List.mem_append, List.mem_cons] at hi
      rcases hi with hi | rfl | hi
      · exact records_subset_of_mem (fun _ => rfl) hi
      · exact List.nil_subset _
      · exact records_subset_cons (ih (n + 1) i hi)

variable {known records : String → Prop} {l : Layout}

section
variable (lib : Library known records) (h : ∀ name ∈ l.records, records name)

include lib h

theorem callsOnly_ofSerializer : ∀ line ∈ Body.ofSerializer l.serializer, line.CallsOnly known := by
  have hinstrs : ∀ i ∈ l.serializer.instrs, ∀ name ∈ i.records, records name := by
    intro i hi name hname
    rcases List.mem_append.1 hi with hi | hi
    · obtain ⟨header, -, rfl⟩ : ∃ header ∈ l.header, Instr.storeHeader 0 header = i := by
        simpa using hi
      cases hname
    · exact h name (records_storeCells l.cells 0 i hi hname)
  unfold Body.ofSerializer
  simp only [List.forall_mem_append, List.forall_mem_singleton, Line.callsOnly_plain, and_true]
  refine ⟨Body.callsOnly_destructure (Line.callsOnly_plain _), fun line hline => ?_⟩
  obtain ⟨i, hi, hline⟩ := List.mem_flatMap.1 hline
  exact Body.callsOnly_storeLine lib (hinstrs i hi) line hline

theorem callsOnly_ofParser (mode : ParserMode) :
    ∀ line ∈ Body.ofParser (l.parser mode), line.CallsOnly known := by
  have hinstrs : ∀ i ∈ (l.parser mode).instrs, ∀ name ∈ i.records, records name := by
    intro i hi name hname
    simp only [parser, List.mem_append] at hi
    rcases hi with (hi | hi) | hi
    · split at hi
      · cases hi
      · obtain ⟨header, -, rfl⟩ : ∃ header ∈ l.header, Instr.checkHeader 0 header = i := by
          simpa using hi
        cases hname
    · exact h name (records_loadCells l.cells 0 i hi hname)
    · obtain ⟨⟨field, value⟩, -, rfl⟩ := List.mem_map.1 hi
      cases hname
  unfold Body.ofParser
  simp only [List.forall_mem_append, List.forall_mem_singleton, Line.callsOnly_plain, and_true]
  intro line hline
  obtain ⟨i, hi, hline⟩ := List.mem_flatMap.1 hline
  exact Body.callsOnly_loadInstr lib (hinstrs i hi) line hline

end

end Layout

/-! ## Procedures -/

/-- All procedures that the body calls are known. -/
def Procedure.CallsOnly (known : String → Prop) (p : Procedure) : Prop :=
  ∀ line ∈ p.body, line.CallsOnly known

section
variable {known records : String → Prop} {p : Procedure} {s : TypeStore} {t : RecordType}
  {type : String} {sec : Section}

theorem Procedure.CallsOnly.of_mem (h : p.CallsOnly known) {name : String}
    (hname : name ∈ p.calls) : known name := by
  obtain ⟨line, hline, hname⟩ := List.mem_flatMap.1 hname
  exact h line hline name hname

theorem callsOnly_codeLiteral (lib : Library known records) (v : ConstValue) :
    v.codeLiteral.CallsOnly known := by
  cases v with
  | address a => exact (Line.callsOnly_around _ _ _).2 (lib.helper Stdlib.makeAddress (by decide))
  | _ => exact Line.callsOnly_plain _

theorem callsOnly_stdlib (lib : Library known records) (hp : p ∈ Stdlib.procedures) :
    p.CallsOnly known := by
  have hhelper : ∀ p ∈ Stdlib.procedures, ∀ line ∈ p.body, ∀ name ∈ line.calls,
      name = Stdlib.textToCell.name := by decide
  intro line hline name hname
  rw [hhelper p hp line hline name hname]
  exact lib.helper _ (by decide)

theorem callsOnly_constants (lib : Library known records) (hp : p ∈ s.constantProcedures) :
    p.CallsOnly known := by
  have hreturns {name : String} {sec : Section} {c : Constant}
      (hp : s.constantProcedure? name sec c = some p) : p.CallsOnly known := by
    obtain ⟨v, -, rfl⟩ := Option.map_eq_some_iff.1 hp
    refine List.forall_mem_singleton.2 ?_
    simp [callsOnly_codeLiteral lib v]
  rcases List.mem_append.1 hp with hp | hp
  · obtain ⟨c, -, hp⟩ := List.mem_filterMap.1 hp
    exact hreturns hp
  · obtain ⟨u, -, hp⟩ := List.mem_flatMap.1 hp
    obtain ⟨c, -, hp⟩ := List.mem_filterMap.1 hp
    exact hreturns hp

theorem callsOnly_wrappers {tensor : String}
    (h : ∀ role ∈ RecordType.recordRoles false ++ RecordType.tupleRoles,
      known (ProcName.ofType type role))
    (hp : p ∈ wrapperProcedures type tensor sec) : p.CallsOnly known := by
  have hstore : known (ProcName.store type) := h "store" (by decide)
  have hstoreCell : known (ProcName.storeCell type) := h "store_cell" (by decide)
  have hnotNull : known (ProcName.recordNotNull type) := h "not_null" (by decide)
  have hload : known (ProcName.load type) := h "load" (by decide)
  have hloadCell : known (ProcName.loadCell type) := h "load_cell" (by decide)
  have hasOptional : known (ProcName.asOptional type) := h "as_optional" (by decide)
  simp only [wrapperProcedures, List.mem_cons, List.not_mem_nil, or_false] at hp
  rcases hp with rfl | rfl | rfl | rfl <;> simp [Procedure.CallsOnly, *]

theorem callsOnly_accessors {fields : List Field}
    (hp : p ∈ accessorProcedures s type fields sec) : p.CallsOnly known := by
  have htaken : ∀ line ∈ Body.destructure (fields.map (·.name)) (.plain "v"),
      line.CallsOnly known := Body.callsOnly_destructure (Line.callsOnly_plain _)
  rcases List.mem_append.1 hp with hp | hp
  · obtain ⟨f, -, rfl⟩ := List.mem_map.1 hp
    exact List.forall_mem_append.2 ⟨htaken, by simp⟩
  · simp only [List.mem_cons, List.not_mem_nil, or_false] at hp
    rcases hp with rfl | rfl | rfl
    · exact List.forall_mem_append.2 ⟨htaken, by simp⟩
    · exact List.forall_mem_append.2 ⟨htaken, by simp⟩
    · simp only [Procedure.CallsOnly, notNullProcedure, List.forall_mem_append]
      refine ⟨⟨by simp, ?_⟩, by simp⟩
      split <;> simp

theorem callsOnly_commaSeparated : ∀ {ls : List Line}, (∀ l ∈ ls, l.CallsOnly known) →
    (commaSeparated ls).CallsOnly known
  | [], _ => nofun
  | [l], h => by simpa [commaSeparated] using h
  | l :: l' :: ls, h => by
    obtain ⟨hl, hls⟩ := List.forall_mem_cons.1 h
    have hrest := callsOnly_commaSeparated hls
    have hcons : commaSeparated (l :: l' :: ls) =
        l ++ (.text ", " :: commaSeparated (l' :: ls)) := by
      simp [commaSeparated]
    rw [hcons, Line.callsOnly_append, Line.callsOnly_text_cons]
    exact ⟨hl, hrest⟩

theorem callsOnly_contractInit (lib : Library known records) :
    (s.contractInitProcedure t).CallsOnly known := by
  have hvalues :
      (commaSeparated (t.fields.map (initialValue (t.init.getD [])))).CallsOnly known := by
    refine callsOnly_commaSeparated fun l hl => ?_
    obtain ⟨f, -, rfl⟩ := List.mem_map.1 hl
    unfold initialValue
    split
    · exact callsOnly_codeLiteral lib _
    · split <;> exact Line.callsOnly_plain _
  refine List.forall_mem_singleton.2 ?_
  simp [hvalues]

theorem callsOnly_loadParameters
    (h : t.init.isSome = true → known (ProcName.load (ProcName.initType t.name))) :
    ∀ line ∈ TypeStore.loadParameters t, line.CallsOnly known := by
  unfold TypeStore.loadParameters
  split
  · exact nofun
  · next params hinit =>
    have hsource : (Line.around "$sc~" (ProcName.load (ProcName.initType t.name)) "()").CallsOnly
        known := (Line.callsOnly_around _ _ _).2 (h (by rw [hinit]; rfl))
    dsimp only
    split
    · simp [hsource]
    · exact Body.callsOnly_destructure hsource

/-- The procedures on the data of a contract call those of the contract and of its parameters. -/
theorem callsOnly_contract (lib : Library known records) (hcontract : t.isContract = true)
    (h : ∀ x ∈ t.titles, known x.text)
    (hp : p ∈ s.contractProcedures t ++ [s.initDataProcedure t]) : p.CallsOnly known := by
  have hown (role : String) (hrole : role ∈ RecordType.contractRoles) :
      known (ProcName.ofType t.name role) := by
    refine h (.role t.name role) ?_
    simp [RecordType.titles, hcontract, hrole]
  have hparams (hinit : t.init.isSome = true) (role : String) (hrole : role ∈ ["store", "load"]) :
      known (ProcName.ofType (ProcName.initType t.name) role) := by
    refine h (.initRole t.name role) ?_
    unfold RecordType.titles
    rw [if_pos hcontract, if_pos hinit]
    exact List.mem_append_left _ (List.mem_append_right _ (List.mem_map_of_mem hrole))
  simp only [TypeStore.contractProcedures, List.cons_append, List.nil_append, List.mem_cons,
    List.not_mem_nil, or_false] at hp
  rcases hp with rfl | rfl | rfl | rfl
  · exact callsOnly_contractInit lib
  · have hload : known (ProcName.loadNoHeader t.name) := hown "load_no_opcode" (by decide)
    have hinit : known (ProcName.contractInit t.name) := hown "contract_init" (by decide)
    have hread : ∀ line ∈ TypeStore.loadParameters t, line.CallsOnly known :=
      callsOnly_loadParameters fun hsome => hparams hsome "load" (by decide)
    simpa [Procedure.CallsOnly, TypeStore.contractLoadProcedure, or_imp, forall_and, hload, hinit]
      using hread
  · have hstore : known (ProcName.store t.name) := hown "store" (by decide)
    simp [Procedure.CallsOnly, TypeStore.contractStoreProcedure, hstore]
  · simp only [Procedure.CallsOnly, TypeStore.initDataProcedure, List.forall_mem_append]
    refine ⟨⟨by simp, ?_⟩, by simp⟩
    split
    · simp
    · next params hinit =>
      have hstore : known (ProcName.store (ProcName.initType t.name)) :=
        hparams (by rw [hinit]; rfl) "store" (by decide)
      simp [hstore]

end

/-! ## Analyses -/

namespace Analysis

variable {s : TypeStore} {ev : Evaluator} {a : Analysis} {t : RecordType} {p : Procedure}

/-- A procedure of the name is generated. -/
def Generated (a : Analysis) (name : String) : Prop := ∃ x ∈ a.titles, x.text = name

theorem generated_iff (h : s.analyze ev = .ok a) (link : String) {name : String} :
    a.Generated name ↔ ∃ p ∈ a.procedures link, p.name = name := by
  have hnames := (generates_procedures (TypeStore.analyze_ok h).identified h link).names
  rw [Generated, ← List.mem_map, ← hnames, List.mem_map]

theorem Of.generated (ha : a.Of s) (ht : t ∈ a.store.types) (hkind : t.kind.hasLayout = true) :
    ∀ x ∈ t.titles, a.Generated x.text := by
  intro x hx
  refine ⟨x, ?_, rfl⟩
  simp only [titles, List.mem_append, List.mem_flatMap]
  exact .inl (.inr ⟨t, List.mem_filter.2 ⟨ha.ordered t ht, hkind⟩, hx⟩)

theorem Of.generated_role (ha : a.Of s) (ht : t ∈ a.store.types)
    (hkind : t.kind.hasLayout = true) (hcontract : t.isContract = false) {role : String}
    (hrole : role ∈ RecordType.recordRoles false ++ RecordType.tupleRoles) :
    a.Generated (ProcName.ofType t.name role) := by
  have hmore : RecordType.recordRoles false ⊆ RecordType.recordRoles t.isMessage := by
    cases t.isMessage <;> decide
  refine ha.generated ht hkind (.role t.name role) ?_
  rw [RecordType.titles, hcontract]
  refine List.mem_map_of_mem ?_
  simp only [RecordType.roles, List.mem_append] at hrole ⊢
  exact hrole.imp (fun h => .inl (hmore h)) id

/-- A type that a field can have is a struct or a message, which has all procedures of a record. -/
theorem Of.library (ha : a.Of s) :
    Library a.Generated fun name => a.store.isFieldType name = true := by
  constructor
  · intro p hp
    refine ⟨.free p.name, ?_, rfl⟩
    simp only [titles, List.mem_append]
    exact .inl (.inl (.inl (List.mem_map_of_mem hp)))
  · intro name hname role hrole
    unfold TypeStore.isFieldType at hname
    split at hname
    · next t ht =>
      obtain rfl := TypeStore.name_of_get? ht
      have hkind : t.kind.hasLayout = true ∧ t.isContract = false := by
        unfold RecordType.isContract
        revert hname
        cases t.kind <;> decide
      exact ha.generated_role (TypeStore.mem_of_get? ht) hkind.1 hkind.2 hrole
    · cases hname

/-- The operations of a layout are for fields of its record type. -/
theorem Of.isFieldType_of_records (ha : a.Of s) {id : LayoutId} {l : Layout}
    (hl : a.layouts.get? id = some l) : ∀ name ∈ l.records, a.store.isFieldType name = true := by
  obtain ⟨t, ht, hl⟩ := ha.valid.filled_or_bounced hl
  have hmem := TypeStore.mem_of_get? ht
  have hfilled {id : LayoutId} {header : Option UInt32} {fields : List Field} {l : Layout}
      (hfields : fields ⊆ t.allFields) (h : a.layouts.Filled id t header fields l) :
      ∀ name ∈ l.records, a.store.isFieldType name = true := by
    intro name hname
    obtain ⟨p, hp, hname⟩ := List.mem_flatMap.1 hname
    obtain ⟨f, hf, -, current, hcost⟩ := exists_field_of_placed h.placed hp
    have hlowers := (hcost.sound ha.firstSize_le fun _ _ hl => firstSize_eq hl).1
    exact ha.mentioned t hmem f (hfields hf) name (hlowers.records_subset hname)
  obtain ⟨_, _, hfields, hl⟩ | ⟨type, full, -, -, hfull, rfl⟩ := hl
  · exact hfilled hfields hl
  · obtain ⟨first, rest, hcells, hfirst, -⟩ := hfull.fits
    refine fun name hname => hfilled (List.subset_append_left _ _) hfull name ?_
    obtain ⟨p, hp, hname⟩ := List.mem_flatMap.1 hname
    exact List.mem_flatMap.2 ⟨p, Layout.placements_bounced_subset hcells hfirst _ _ hp, hname⟩

theorem Of.callsOnly_ofSerializer (ha : a.Of s) {id : LayoutId} {l : Layout}
    (hl : a.layouts.get? id = some l) :
    ∀ line ∈ Body.ofSerializer l.serializer, line.CallsOnly a.Generated :=
  Layout.callsOnly_ofSerializer ha.library (ha.isFieldType_of_records hl)

theorem Of.callsOnly_ofParser (ha : a.Of s) {id : LayoutId} {l : Layout}
    (hl : a.layouts.get? id = some l) (mode : ParserMode) :
    ∀ line ∈ Body.ofParser (l.parser mode), line.CallsOnly a.Generated :=
  Layout.callsOnly_ofParser ha.library (ha.isFieldType_of_records hl) mode

theorem Of.callsOnly_full (ha : a.Of s) {l : Layout}
    (hl : a.layouts.get? (.full t.name) = some l) (hp : p ∈ a.fullProcedures t l) :
    p.CallsOnly a.Generated := by
  simp only [fullProcedures, List.mem_cons, List.not_mem_nil, or_false] at hp
  rcases hp with rfl | rfl | rfl
  · exact ha.callsOnly_ofSerializer hl
  · exact ha.callsOnly_ofParser hl _
  · exact ha.callsOnly_ofParser hl _

theorem Of.callsOnly_init (ha : a.Of s) (hp : p ∈ a.initProcedures t) :
    p.CallsOnly a.Generated := by
  unfold initProcedures at hp
  split at hp
  · next params fields hparams _ =>
    simp only [List.mem_cons, List.not_mem_nil, or_false] at hp
    rcases hp with rfl | rfl
    · exact ha.callsOnly_ofSerializer hparams
    · exact ha.callsOnly_ofParser hparams _
  · cases hp

theorem Of.callsOnly_bounced (ha : a.Of s) (hp : p ∈ a.bouncedProcedures t) :
    p.CallsOnly a.Generated := by
  unfold bouncedProcedures at hp
  split at hp
  · next left hleft =>
    obtain rfl := List.mem_singleton.1 hp
    exact ha.callsOnly_ofParser hleft _
  · cases hp

/-- A contract has procedures of its own instead of wrappers and accessors. -/
theorem Of.callsOnly_typeProcedures (ha : a.Of s) (ht : t ∈ a.store.types)
    (hkind : t.kind.hasLayout = true) (hp : p ∈ a.typeProcedures t) :
    p.CallsOnly a.Generated := by
  unfold typeProcedures at hp
  split at hp
  · cases hp
  · next l hl =>
    simp only at hp
    split at hp
    · next hcontract =>
      have hown (hp : p ∈ a.store.contractProcedures t ++ [a.store.initDataProcedure t]) :
          p.CallsOnly a.Generated :=
        callsOnly_contract ha.library hcontract (ha.generated ht hkind) hp
      simp only [List.mem_append] at hp
      rcases hp with ((hp | hp) | hp) | hp
      · exact ha.callsOnly_full hl hp
      · exact hown (List.mem_append_left _ hp)
      · exact ha.callsOnly_init hp
      · exact hown (List.mem_append_right _ hp)
    · next hcontract =>
      simp only [List.mem_append] at hp
      rcases hp with ((hp | hp) | hp) | hp
      · exact ha.callsOnly_full hl hp
      · exact ha.callsOnly_bounced hp
      · refine callsOnly_wrappers (fun role hrole => ?_) hp
        exact ha.generated_role ht hkind (by simpa using hcontract) hrole
      · exact callsOnly_accessors hp

/-- Every procedure that is called by a generated one is generated. -/
theorem callsOnly_procedures (h : s.analyze ev = .ok a) {link : String}
    (hp : p ∈ a.procedures link) : p.CallsOnly a.Generated := by
  have ha := TypeStore.analyze_ok h
  simp only [procedures, List.mem_append, List.mem_singleton] at hp
  rcases hp with ((hp | hp) | hp) | rfl
  · exact callsOnly_stdlib ha.library hp
  · exact callsOnly_constants ha.library hp
  · obtain ⟨t, ht, hp⟩ := List.mem_flatMap.1 hp
    obtain ⟨hordered, hkind⟩ := List.mem_filter.1 ht
    exact ha.callsOnly_typeProcedures (mem_types_of_mem_orderedTypes hordered) hkind hp
  · exact List.forall_mem_singleton.2 (Line.callsOnly_plain _)

/--
Whatever the emitter, the procedures that an output has are those of the groups that the emitter is
given. Each procedure that one of them calls is registered, and is in one of the groups.
-/
theorem artifact_closed (h : s.analyze ev = .ok a) {o : CompileOptions} {emitter : Emitter}
    {addresser : Addresser} {art : Artifact} (hart : a.artifact o emitter addresser = .ok art) :
    ∃ w : Arrangement, w.Arranges a.order ((a.registry art.abiLink).extract o.comments)
      ∧ (∃ headers passedOn, art.files = w.files headers passedOn o.filePrefix emitter
        ((a.registry art.abiLink).extract o.comments))
      ∧ ∀ p ∈ w.procedures, ∀ name ∈ p.calls, ∃ q ∈ a.procedures art.abiLink,
        (a.registry art.abiLink).get? name = some q
          ∧ ∃ q' ∈ w.procedures, q'.name = name ∧ q'.part = q.part ∧ q'.body = q.body := by
  obtain ⟨entry, -, hart⟩ := bind_eq_ok.1 hart
  cases hart
  dsimp only
  generalize addresser (a.store.descriptionText entry.name) = link
  obtain ⟨hcover, hnames⟩ := covered_extract h link o.comments
  have hproper := proper_registry a link
  have harranges := arranges h hcover hnames
  refine ⟨a.arrangement ((a.registry link).extract o.comments), harranges,
    ⟨_, _, files_eq a o entry.name emitter (a.registry link).globals _⟩, fun p hp name hname => ?_⟩
  obtain ⟨r, hr, rfl⟩ := hproper.mem_extract.1 (harranges.once.subset hp)
  have hr := mem_procedures_of_registered (Table.mem_of_get? hr)
  have hcalls : name ∈ r.calls := by
    revert hname
    cases o.comments <;> exact id
  obtain ⟨q, hq, -, hget⟩ := exists_registered
    ((generated_iff h link).1 ((callsOnly_procedures h hr).of_mem hcalls))
  obtain ⟨q', hq', hfound⟩ := hproper.exists_mem_extract hget o.comments
  exact ⟨q, hq, hget, q', harranges.once.symm.subset hq', hfound⟩

/-- The serializer of a tag is called, so it is there. -/
theorem artifact_closed_sample : ∃ a art, sampleBank.analyze Expr.evaluate = .ok a
    ∧ a.artifact { entry := "Bank" } .standard crc32Link = .ok art
    ∧ ∃ w : Arrangement, w.Arranges a.order ((a.registry art.abiLink).extract false)
      ∧ (∃ p ∈ w.procedures, "$Tag$_store" ∈ p.calls)
      ∧ ∃ q ∈ w.procedures, q.name = "$Tag$_store" := by
  obtain ⟨art, hart⟩ := exists_sampleBank
  obtain ⟨a, ha, hart⟩ := TypeStore.exists_artifact hart
  have hcalled : (sampleBank.analyze Expr.evaluate).toOption.any (fun a =>
      (a.artifact { entry := "Bank" } .standard crc32Link).toOption.any fun art =>
        ((a.registry art.abiLink).extract false).any fun p =>
          decide ("$Tag$_store" ∈ p.calls)) = true := by decide +kernel
  rw [ha] at hcalled
  change (a.artifact { entry := "Bank" } .standard crc32Link).toOption.any _ = true at hcalled
  rw [hart] at hcalled
  obtain ⟨p, hp, hcalls⟩ := List.any_eq_true.1 hcalled
  obtain ⟨w, harranges, -, hclosed⟩ := artifact_closed ha hart
  have hp := harranges.once.symm.subset hp
  obtain ⟨-, -, -, q, hq, hname, -⟩ := hclosed p hp "$Tag$_store" (of_decide_eq_true hcalls)
  exact ⟨a, art, ha, hart, w, harranges, ⟨p, hp, of_decide_eq_true hcalls⟩, q, hq, hname⟩

end Analysis
end CellPack
