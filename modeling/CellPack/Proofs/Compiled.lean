import Mathlib
import CellPack.Machine.Basic
import CellPack.Proofs.Analysed
import CellPack.Proofs.Linked
import CellPack.Proofs.Procedures
/-!
# Compiled stores

The programs of a compiled store are linked to its record types (`Analysis.Of.linked`), so what is
known of linked programs holds for the machine that runs them.
-/

namespace CellPack

open Step

theorem RecordType.hasLayout_of_contract {t : RecordType} (h : t.isContract = true) :
    t.kind.hasLayout = true := by
  have hkind : t.kind = .contract := by simpa [isContract] using h
  rw [hkind]
  rfl

namespace TypeStore

/-- The record type is declared and has a layout. -/
def LaidOut (s : TypeStore) (name : String) : Prop :=
  ∃ t, s.get? name = some t ∧ t.kind.hasLayout = true

theorem LaidOut.of_message {s : TypeStore} {name : String} {t : RecordType}
    (ht : s.get? name = some t) (h : t.isMessage = true) : s.LaidOut name := by
  have hkind : t.kind = .message := by simpa [RecordType.isMessage] using h
  exact ⟨t, ht, by rw [hkind]; rfl⟩

theorem LaidOut.of_contract {s : TypeStore} {name : String} {t : RecordType}
    (ht : s.get? name = some t) (h : t.isContract = true) : s.LaidOut name :=
  ⟨t, ht, RecordType.hasLayout_of_contract h⟩

/-- No record type has two fields of the same name. -/
def DistinctFields (s : TypeStore) : Prop := ∀ t ∈ s.types, (t.fields.map (·.name)).Nodup

end TypeStore

theorem Field.map_shape (fields : List Field) :
    (Field.shape fields).map (·.1) = fields.map (·.name) := List.map_map

theorem LayoutCache.Valid.id_eq {s : TypeStore} {c : LayoutCache} (hc : Valid s c) {id : LayoutId}
    {l : Layout} (h : c.get? id = some l) : l.id = id := by
  obtain ⟨t, -, ⟨_, _, -, hl⟩ | ⟨name, full, -, -, -, rfl⟩⟩ := hc.filled_or_bounced h
  · exact hl.id_eq
  · rfl

namespace Analysis

/-- The size of the first cell of a record. -/
def firstSize (a : Analysis) (name : String) : CellSize :=
  (a.layouts.get? (.full name)).elim .zero Layout.firstCellSize

variable {s : TypeStore} {a : Analysis}

theorem firstSize_eq {name : String} {l : Layout} (h : a.layouts.Holds name l) :
    a.firstSize name = l.firstCellSize := by
  unfold firstSize
  rw [h]
  rfl

theorem Of.firstSize_le (h : a.Of s) (name : String) :
    (a.firstSize name).bits ≤ maxCellBits ∧ (a.firstSize name).refs ≤ maxCellRefs := by
  cases hl : a.layouts.get? (.full name) with
  | none =>
    unfold firstSize
    rw [hl]
    exact ⟨Nat.zero_le _, Nat.zero_le _⟩
  | some l =>
    obtain ⟨t, -, hfilled⟩ := h.valid.holds hl
    obtain ⟨first, rest, hcells, hfirst, -⟩ := hfilled.fits
    rw [firstSize_eq hl]
    exact Layout.firstCellSize_le hcells hfirst.used_fits

theorem Of.identified (h : a.Of s) : a.Identified := fun _ _ hl => h.valid.id_eq hl

theorem Of.plainNames (h : a.Of s) (hplain : s.PlainNames) : a.store.PlainNames := by
  refine ⟨fun t ht => ?_, fun c hc => ?_⟩
  · obtain ⟨t', ht', hname, -⟩ := h.outline.exists_get? (TypeStore.get?_of_mem ht)
    exact hname ▸ hplain.types t' (TypeStore.mem_of_get? ht')
  · have hmem : c.name ∈ s.constants.map (·.name) := by
      rw [← h.outline.constants]
      exact List.mem_map_of_mem hc
    obtain ⟨c', hc', hname⟩ := List.mem_map.1 hmem
    exact hname ▸ hplain.constants c' hc'

/-- A type of the analysed store has the kind that it was declared with. -/
theorem Of.kind_eq (h : a.Of s) {t u : RecordType} (ht : s.get? u.name = some t)
    (hu : u ∈ a.store.types) : u.kind = t.kind := by
  obtain ⟨t', ht', -, hkind, -⟩ := h.outline.exists_get? (TypeStore.get?_of_mem hu)
  obtain rfl : t = t' := Option.some.inj (ht.symm.trans ht')
  exact hkind.symm

/-- A record type of the store, with its layout. -/
theorem Of.exists_layout (h : a.Of s) {name : String} (hname : s.LaidOut name) :
    ∃ t l, t ∈ a.store.types ∧ t.name = name ∧ t.kind.hasLayout = true
      ∧ s.shape name = some (Field.shape t.fields) ∧ a.layouts.Holds name l
      ∧ a.layouts.Filled (.full name) t (if t.isMessage then t.headerValue else none) t.fields l := by
  obtain ⟨t', ht', hkind'⟩ := hname
  obtain ⟨t, ht, -, hkind, -⟩ := h.outline.symm.exists_get? ht'
  have hmem := TypeStore.mem_of_get? ht
  have htname := TypeStore.name_of_get? ht
  have hlayout : t.kind.hasLayout = true := hkind ▸ hkind'
  obtain ⟨⟨l, hl⟩, -⟩ := h.serves t hmem hlayout
  rw [htname] at hl
  obtain ⟨t'', ht'', hfilled⟩ := h.valid.holds hl
  obtain rfl : t = t'' := Option.some.inj (ht.symm.trans ht'')
  refine ⟨t, l, hmem, htname, hlayout, ?_, hl, hfilled⟩
  rw [← h.outline.shape_eq, TypeStore.shape, ht]
  rfl

theorem Of.distinctFields (h : a.Of s) (hdistinct : s.DistinctFields) : a.store.DistinctFields := by
  intro t ht
  obtain ⟨t', ht', -, -, hshape, -⟩ := h.outline.exists_get? (TypeStore.get?_of_mem ht)
  rw [← Field.map_shape, ← hshape, Field.map_shape]
  exact hdistinct t' (TypeStore.mem_of_get? ht')

/-- A type that a field can have is laid out. -/
theorem Of.laidOut_of_isFieldType (h : a.Of s) {name : String}
    (hfieldType : a.store.isFieldType name = true) : s.LaidOut name := by
  unfold TypeStore.isFieldType at hfieldType
  split at hfieldType
  · next t' ht' =>
    obtain ⟨t'', ht'', -, hkind, -⟩ := h.outline.exists_get? ht'
    refine ⟨t'', ht'', ?_⟩
    rw [hkind]
    revert hfieldType
    cases t'.kind <;> decide
  · cases hfieldType

/-- All that the fields and parameters of a record type mention is laid out. -/
theorem Of.laidOut_of_mentioned (h : a.Of s) {t : RecordType} (ht : t ∈ a.store.types) {f : Field}
    (hf : f ∈ t.allFields) {other : String} (hother : other ∈ f.type.mentioned) :
    s.LaidOut other := h.laidOut_of_isFieldType (h.mentioned t ht f hf other hother)

/-- The parameters of a contract of the store, with their layout. -/
theorem Of.exists_params (h : a.Of s) {name : String} {t : RecordType} (ht : s.get? name = some t)
    (hcontract : t.isContract = true) {params : List Field} (hinit : t.init = some params) :
    ∃ t' params' l, t' ∈ a.store.types ∧ t'.name = name ∧ t'.isContract = true
      ∧ t'.init = some params' ∧ Field.shape params' = Field.shape params
      ∧ a.layouts.get? (.init name) = some l
      ∧ a.layouts.Filled (.init name) t' none params' l := by
  obtain ⟨t', ht', -, hkind, -, hparams⟩ := h.outline.symm.exists_get? ht
  obtain ⟨params', hinit', hshape⟩ : ∃ params', t'.init = some params'
      ∧ Field.shape params' = Field.shape params := by
    rw [hinit] at hparams
    exact Option.map_eq_some_iff.1 hparams
  have hcontract' : t'.isContract = true := by simpa [RecordType.isContract, hkind] using hcontract
  have hlayout := RecordType.hasLayout_of_contract hcontract'
  have hmem := TypeStore.mem_of_get? ht'
  obtain rfl : t'.name = name := TypeStore.name_of_get? ht'
  obtain ⟨l, hl⟩ := (h.serves t' hmem hlayout).2.2 ⟨hcontract', by rw [hinit']; rfl⟩
  obtain ⟨t'', ht'', hfilled⟩ := h.valid.computed _ l hl
  obtain rfl : t' = t'' := Option.some.inj (ht'.symm.trans ht'')
  rw [hinit', Option.getD_some] at hfilled
  exact ⟨t', params', l, hmem, rfl, hcontract', hinit', hshape, hl, hfilled⟩

/-- A layout that was filled is one of its fields. -/
theorem Of.laid (h : a.Of s) {id : LayoutId} {t : RecordType} {header : Option UInt32}
    {fields : List Field} {l : Layout} (hfilled : a.layouts.Filled id t header fields l)
    (hdistinct : (fields.map (·.name)).Nodup)
    (hheader : header.isSome = true → reservedBits id t.kind = headerBits) :
    Machine.Laid a.firstSize (Field.shape fields) l := by
  have hnames : ((Field.shape fields).map (·.1)).Nodup := (Field.map_shape fields).symm ▸ hdistinct
  refine
    { fields := ?_
      omitted := ?_
      distinct := hnames
      names := hfilled.names.trans (Field.map_shape fields).symm
      placed := fun pl hpl => ?_
      cells := hfilled.fits
      header := fun h hheader' => ?_ }
  · rw [hfilled.fields_eq, Field.map_shape]
  · exact hfilled.omitted_eq
  · obtain ⟨f, hf, hplaced⟩ := exists_field_of_placed hfilled.placed hpl
    obtain ⟨current, hcost⟩ := hplaced.costs
    have hfield : (f.name, f.type) ∈ Field.shape fields := List.mem_map_of_mem hf
    refine ⟨f.type, ?_, hcost.sound h.firstSize_le fun name l' hl' => firstSize_eq hl'⟩
    rw [hplaced.field]
    exact lookup_of_mem hnames hfield
  · rw [hfilled.header_eq] at hheader'
    rw [hfilled.reserved_eq]
    exact hheader (Option.isSome_iff_exists.2 ⟨h, hheader'⟩)

/-- A message of the analysed store, with its layout and the programs of it. -/
structure Message (a : Analysis) (link name : String) (t : RecordType) (l : Layout) : Prop where
  type : a.store.get? name = some t
  isMessage : t.isMessage = true
  layout : a.layouts.get? (.full name) = some l
  header : l.header = t.headerValue
  code : Machine.Code (a.registry link).programs a.firstSize name (Field.shape t.fields) l
  bounced : (a.registry link).programs.lookup true (ProcName.loadBounced name) =
    .ok ((l.bounced (.bounced name) t.fields).parser .bounced)

section
variable (h : a.Of s) (hplain : s.PlainNames) (hdistinct : s.DistinctFields) (link : String)

include h hplain hdistinct

/-- The programs of a record type are those of its layout. -/
theorem Of.code {t : RecordType} {l : Layout} (ht : t ∈ a.store.types)
    (hkind : t.kind.hasLayout = true) (hl : a.layouts.Holds t.name l)
    (hfilled : a.layouts.Filled (.full t.name) t (if t.isMessage then t.headerValue else none)
      t.fields l) :
    Machine.Code (a.registry link).programs a.firstSize t.name (Field.shape t.fields) l := by
  have hplain := h.plainNames hplain
  have hordered := h.ordered t ht
  refine
    { toLaid := h.laid hfilled (h.distinctFields hdistinct t ht) fun hheader => ?_
      serializer := lookup_store h.identified hplain hordered hkind hl link
      parser := fun mode hmode =>
        lookup_load h.identified hplain hordered hkind hl link hmode
      first := firstSize_eq hl }
  -- only messages have a header, and theirs is reserved
  by_cases hmessage : t.isMessage = true
  · have : t.kind = .message := by simpa [RecordType.isMessage] using hmessage
    simp only [reservedBits, this]
  · simp only [if_neg hmessage] at hheader
    cases hheader

theorem Of.linked : Machine.Linked (a.registry link).programs s.shape a.firstSize s.LaidOut := by
  refine ⟨fun name hname => ?_, fun name declared hname hshape d hd other hother => ?_, h.firstSize_le⟩
  · obtain ⟨t, l, ht, rfl, hkind, hshape, hl, hfilled⟩ := h.exists_layout hname
    exact ⟨_, l, hshape, h.code hplain hdistinct link ht hkind hl hfilled⟩
  · obtain ⟨t, l, ht, -, -, hshape', -⟩ := h.exists_layout hname
    obtain rfl : Field.shape t.fields = declared := Option.some.inj (hshape'.symm.trans hshape)
    obtain ⟨f, hf, rfl⟩ := List.mem_map.1 hd
    exact h.laidOut_of_mentioned ht (List.mem_append_left _ hf) hother

/-- A message of the store has its header in its layout, and a parser for what is left of it. -/
theorem Of.message {name : String} {t : RecordType} (ht : s.get? name = some t)
    (hmessage : t.isMessage = true) :
    ∃ t' l, s.shape name = some (Field.shape t'.fields) ∧ a.Message link name t' l := by
  have hkind : t.kind = .message := by simpa [RecordType.isMessage] using hmessage
  obtain ⟨t', l, ht', rfl, hlayout, hshape, hl, hfilled⟩ :=
    h.exists_layout (.of_message ht hmessage)
  have hget := TypeStore.get?_of_mem ht'
  have hkind' : t'.kind = .message := (h.kind_eq ht ht').trans hkind
  have hmessage' : t'.isMessage = true := by simp [RecordType.isMessage, hkind']
  have hcontract : t'.isContract = false := by simp [RecordType.isContract, hkind']
  obtain ⟨left, hleft⟩ := (h.serves t' ht' hlayout).2.1 hmessage'
  refine ⟨t', l, hshape, hget, hmessage', hl, ?_, h.code hplain hdistinct link ht' hlayout hl hfilled,
    ?_⟩
  · exact hfilled.header_eq.trans (if_pos hmessage')
  · obtain ⟨t'', ht'', full, hfull, rfl⟩ := h.valid.computed _ left hleft
    obtain rfl : t' = t'' := Option.some.inj (hget.symm.trans ht'')
    obtain rfl : full = l := Option.some.inj (hfull.symm.trans hl)
    exact lookup_loadBounced h.identified (h.plainNames hplain) (h.ordered _ ht') hlayout hl link
      hleft hcontract

/-- A contract has no header, but one bit for a flag. -/
theorem Of.contract {name : String} {t : RecordType} (ht : s.get? name = some t)
    (hcontract : t.isContract = true) :
    ∃ declared l, s.shape name = some declared
      ∧ Machine.Code (a.registry link).programs a.firstSize name declared l
      ∧ l.header = none ∧ l.reserved = 1 := by
  have hkind : t.kind = .contract := by simpa [RecordType.isContract] using hcontract
  obtain ⟨t', l, ht', rfl, hlayout, hshape, hl, hfilled⟩ :=
    h.exists_layout (.of_contract ht hcontract)
  have hkind' : t'.kind = .contract := (h.kind_eq ht ht').trans hkind
  refine ⟨_, l, hshape, h.code hplain hdistinct link ht' hlayout hl hfilled, ?_, ?_⟩
  · simp [hfilled.header_eq, RecordType.isMessage, hkind']
  · simp [hfilled.reserved_eq, reservedBits, hkind']

omit hdistinct in
/-- The parameters of a contract are laid out like a record, behind a flag as well. -/
theorem Of.laid_params {name : String} {t : RecordType} (ht : s.get? name = some t)
    (hcontract : t.isContract = true) {params : List Field} (hinit : t.init = some params)
    (hnames : (params.map (·.name)).Nodup) {l : Layout} (hl : a.layouts.get? (.init name) = some l) :
    Machine.Laid a.firstSize (Field.shape params) l ∧ l.header = none ∧ l.reserved = 1
      ∧ (a.registry link).programs.lookup false (ProcName.store (ProcName.initType name)) =
        .ok l.serializer
      ∧ (a.registry link).programs.lookup true (ProcName.load (ProcName.initType name)) =
        .ok (l.parser .withHeader)
      ∧ ∀ d ∈ Field.shape params, ∀ other ∈ d.2.mentioned, s.LaidOut other := by
  obtain ⟨t', params', l', hmem, rfl, hcontract', hinit', hshape, hl', hfilled⟩ :=
    h.exists_params ht hcontract hinit
  obtain rfl : l = l' := Option.some.inj (hl.symm.trans hl')
  have hlayout := RecordType.hasLayout_of_contract hcontract'
  obtain ⟨⟨full, hfull⟩, -⟩ := h.serves t' hmem hlayout
  obtain ⟨hstore, hload⟩ := lookup_init h.identified (h.plainNames hplain) (h.ordered t' hmem)
    hlayout hfull link hl hinit' hcontract'
  have hnames' : (params'.map (·.name)).Nodup := by
    rwa [← Field.map_shape, hshape, Field.map_shape]
  rw [← hshape]
  refine ⟨h.laid hfilled hnames' nofun, hfilled.header_eq, hfilled.reserved_eq, hstore, hload,
    fun d hd other hother => ?_⟩
  obtain ⟨f, hf, rfl⟩ := List.mem_map.1 hd
  refine h.laidOut_of_mentioned hmem (List.mem_append_right _ ?_) hother
  rwa [hinit']

omit hdistinct in
theorem Of.params {name : String} {t : RecordType} (ht : s.get? name = some t)
    (hcontract : t.isContract = true) {params : List Field} (hinit : t.init = some params)
    (hnames : (params.map (·.name)).Nodup) :
    ∃ l, Machine.Laid a.firstSize (Field.shape params) l ∧ l.header = none ∧ l.reserved = 1
      ∧ (a.registry link).programs.lookup false (ProcName.store (ProcName.initType name)) =
        .ok l.serializer
      ∧ (a.registry link).programs.lookup true (ProcName.load (ProcName.initType name)) =
        .ok (l.parser .withHeader)
      ∧ ∀ d ∈ Field.shape params, ∀ other ∈ d.2.mentioned, s.LaidOut other := by
  obtain ⟨-, -, l, -, -, -, -, -, hl, -⟩ := h.exists_params ht hcontract hinit
  exact ⟨l, h.laid_params hplain link ht hcontract hinit hnames hl⟩

end

end Analysis

theorem TypeStore.exists_artifact {s : TypeStore} {o : CompileOptions} {tools : Toolchain}
    {art : Artifact} (h : s.compile o tools = .ok art) :
    ∃ a, s.analyze tools.evaluator = .ok a
      ∧ a.artifact o tools.emitter tools.addresser = .ok art := by
  unfold compile at h
  split at h
  · exact bind_eq_ok.1 h
  · cases h

theorem Analysis.programs_of_artifact {a : Analysis} {o : CompileOptions} {emitter : Emitter}
    {addresser : Addresser} {art : Artifact} (h : a.artifact o emitter addresser = .ok art) :
    art.programs = (a.registry art.abiLink).programs := by
  obtain ⟨entry, -, h⟩ := bind_eq_ok.1 h
  cases h
  rfl

/-- The programs of a compiled store are those of its analysis. -/
theorem TypeStore.compile_ok {s : TypeStore} {o : CompileOptions} {tools : Toolchain}
    {art : Artifact} (h : s.compile o tools = .ok art) :
    ∃ a link, s.analyze tools.evaluator = .ok a ∧ art.programs = (a.registry link).programs := by
  obtain ⟨a, ha, hart⟩ := exists_artifact h
  exact ⟨a, _, ha, Analysis.programs_of_artifact hart⟩

/-! ## Machines -/

/-- The machine that runs the programs of a compiled store. -/
def Artifact.machine (art : Artifact) (limits : Limits) : Machine := ⟨art.programs, limits⟩

namespace Machine

theorem canStart_of_error {m : Machine} {name : String} {e : RuntimeError}
    (h : m.programs.lookup false name = .error e) : m.canStart name = .error e := by
  unfold canStart
  rw [h]
  rfl

theorem canStart_of_zero {m : Machine} {name : String} {p : Program}
    (h : m.programs.lookup false name = .ok p) (hdepth : m.limits.depth = 0) :
    m.canStart name = .error (.nestedTooDeep m.limits.depth) := by
  unfold canStart
  rw [h, hdepth]
  rfl

theorem canStart_of_ok {m : Machine} {name : String} {p : Program}
    (h : m.programs.lookup false name = .ok p) (hdepth : m.limits.depth ≠ 0) :
    m.canStart name = .ok () := by
  unfold canStart
  rw [h, if_neg hdepth]
  rfl

/-- A serializer that cannot start does not touch the builder. -/
theorem run_store_refused {m : Machine} {name : String} {e : RuntimeError}
    (h : m.canStart name = .error e) (v : Value) (b : Builder) :
    (m.store name v).run b = (.error e, b) := by
  unfold store
  rw [h]
  rfl

/-- One that can start takes the builder, and puts back what it has made of it. -/
theorem run_store_started {m : Machine} {name : String} (h : m.canStart name = .ok ())
    (v : Value) (b : Builder) :
    (m.store name v).run b =
      match ((storeProgram m.programs m.limits m.limits.depth name b v).run m.limits.steps).1 with
      | .ok b' => (.ok (), b')
      | .error e => (.error e, {}) := by
  unfold store
  rw [h]
  refine (run_bind_ok rfl).trans ((run_bind_ok rfl).trans ((run_bind_ok rfl).trans ?_))
  rcases (storeProgram m.programs m.limits m.limits.depth name b v).run m.limits.steps with
    ⟨e | b', n⟩ <;> rfl

/-- A serializer that can start runs on the builder. -/
theorem run_store (m : Machine) (name : String) (v : Value) (b : Builder) :
    ((m.store name v).run b).1 = ((storeProgram m.programs m.limits m.limits.depth name b v).run
        m.limits.steps).1.map (fun _ => ())
      ∧ ∀ b', ((storeProgram m.programs m.limits m.limits.depth name b v).run m.limits.steps).1 =
        .ok b' → ((m.store name v).run b).2 = b' := by
  cases hlookup : m.programs.lookup false name with
  | error e =>
    rw [run_storeProgram_error hlookup, run_store_refused (canStart_of_error hlookup)]
    exact ⟨rfl, nofun⟩
  | ok p =>
    by_cases hdepth : m.limits.depth = 0
    · rw [run_store_refused (canStart_of_zero hlookup hdepth), hdepth,
        run_storeProgram_zero hlookup, hdepth]
      exact ⟨rfl, nofun⟩
    · rw [run_store_started (canStart_of_ok hlookup hdepth)]
      cases ((storeProgram m.programs m.limits m.limits.depth name b v).run m.limits.steps).1 with
      | error e => exact ⟨rfl, nofun⟩
      | ok b' => exact ⟨rfl, fun b'' h => Except.ok.inj h⟩

/-- A serializer that succeeds leaves the builder with what its program has made of it. -/
theorem run_store_ok {m : Machine} {name : String} {v : Value} {b b' : Builder} :
    (m.store name v).run b = (.ok (), b') ↔
      ((storeProgram m.programs m.limits m.limits.depth name b v).run m.limits.steps).1 =
        .ok b' := by
  obtain ⟨hresult, hbuilder⟩ := m.run_store name v b
  generalize ((storeProgram m.programs m.limits m.limits.depth name b v).run
    m.limits.steps).1 = r at hresult hbuilder ⊢
  constructor
  · intro h
    rw [h] at hresult hbuilder
    obtain ⟨b'', rfl, -⟩ := map_eq_ok hresult.symm
    rw [← hbuilder b'' rfl]
  · rintro rfl
    exact Prod.ext hresult (hbuilder b' rfl)

theorem storeAfter_eq (m : Machine) (bits : List Bool) (name : String) (v : Value) :
    m.storeAfter bits name v =
      ((storeProgram m.programs m.limits m.limits.depth name { bits } v).run
        m.limits.steps).1.map Builder.toCell := by
  obtain ⟨hresult, hbuilder⟩ := m.run_store name v { bits }
  generalize ((storeProgram m.programs m.limits m.limits.depth name { bits } v).run
    m.limits.steps).1 = r at hresult hbuilder ⊢
  unfold storeAfter
  rcases hrun : (m.store name v).run { bits } with ⟨result, b⟩
  rw [hrun] at hresult hbuilder
  cases r with
  | error e =>
    obtain rfl : result = .error e := hresult
    rfl
  | ok b' =>
    obtain rfl : result = .ok () := hresult
    obtain rfl : b = b' := hbuilder b' rfl
    rfl

/-- What was written behind some bits is what the instructions of the serializer have left. -/
theorem exists_storeAll {m : Machine} {name : String} {p : Program} {bits : List Bool} {v : Value}
    {c : Cell} (hp : m.programs.lookup false name = .ok p) (hc : m.storeAfter bits name v = .ok c) :
    ∃ depth builders n, m.limits.depth = depth + 1 ∧ c = (builders.headD {}).toCell
      ∧ (storeAll (storeProgram m.programs m.limits depth) m.limits p v p.instrs [{ bits }]).run
        m.limits.steps = (.ok builders, n) := by
  rw [storeAfter_eq] at hc
  obtain ⟨b, hb, rfl⟩ := map_eq_ok hc
  cases hdepth : m.limits.depth with
  | zero =>
    rw [hdepth, run_storeProgram_zero hp] at hb
    cases hb
  | succ depth =>
    rw [hdepth, run_storeProgram hp] at hb
    obtain ⟨builders, n, hstore, hlast⟩ := exists_of_run_bind (Prod.ext hb rfl)
    obtain rfl : builders.headD {} = b := by
      cases hlast
      rfl
    exact ⟨depth, builders, n, rfl, rfl, hstore⟩

/-- A parser moves the slice on when all its instructions have run, and then makes the record. -/
theorem run_load (m : Machine) (name : String) (s : Slice) :
    (m.load name).run s =
      match ((loadProgram m.programs m.limits m.limits.depth name s).run m.limits.steps).1 with
      | .ok (p, r, rest) => (toRecord p r, rest)
      | .error e => (.error e, s) := by
  have hload : (m.load name).run s = _ := run_bind_ok rfl
  rw [hload]
  rcases (loadProgram m.programs m.limits m.limits.depth name s).run m.limits.steps with
    ⟨e | ⟨p, r, rest⟩, n⟩
  · rfl
  · refine (run_bind_ok rfl).trans ?_
    change (liftM (toRecord p r) : ExceptT RuntimeError (StateM Slice) Value).run rest =
      (toRecord p r, rest)
    cases toRecord p r <;> rfl

/-- A parser that gives a value leaves the slice behind what it has read. -/
theorem run_load_ok {m : Machine} {name : String} {s rest : Slice} {v : Value} :
    (m.load name).run s = (.ok v, rest) ↔
      ((loadRecord m.programs m.limits m.limits.depth name s).run m.limits.steps).1 =
        .ok (v, rest) := by
  rw [run_load]
  unfold loadRecord
  rw [run_bind]
  rcases (loadProgram m.programs m.limits m.limits.depth name s).run m.limits.steps with
    ⟨e | ⟨p, r, left⟩, n⟩
  · constructor <;> intro h <;> cases h
  · change (toRecord p r, left) = (.ok v, rest) ↔
      (((liftM (toRecord p r) : Run Value) >>= fun v => pure (v, left)).run n).1 = .ok (v, rest)
    rw [Prod.mk.injEq]
    cases toRecord p r with
    | error e =>
      constructor
      · rintro ⟨⟨⟩, -⟩
      · intro h
        cases h
    | ok w =>
      constructor
      · rintro ⟨⟨⟩, rfl⟩
        rfl
      · intro h
        cases h
        exact ⟨rfl, rfl⟩

theorem loadFrom_eq (m : Machine) (name : String) (s : Slice) :
    m.loadFrom name s =
      ((loadRecord m.programs m.limits m.limits.depth name s).run m.limits.steps).1.map (·.1) := by
  have hload : (m.load name).run s = _ := run_bind_ok rfl
  unfold loadFrom loadRecord
  rw [hload, run_bind]
  rcases (loadProgram m.programs m.limits m.limits.depth name s).run m.limits.steps with
    ⟨e | ⟨p, r, rest⟩, n⟩
  · rfl
  · change ((liftM (toRecord p r) : ExceptT RuntimeError (StateM Slice) Value).run rest).1 =
      (((liftM (toRecord p r) : Run Value) >>= fun v => pure (v, rest)).run n).1.map (·.1)
    cases toRecord p r <;> rfl

end Machine
end CellPack
