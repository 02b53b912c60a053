import Mathlib
import CellPack.Proofs.Layouts
import CellPack.Proofs.Parsers
import CellPack.Proofs.Records
/-!
# Linked programs

A set of programs is linked to record types if the programs of each are those of a layout of its
fields. By induction on how deep programs may be nested, every record is then written as the
program that reads it expects, or refused (`Linked.writesFields`), and whatever is read is exact
(`Linked.loadsRecord`).
-/

namespace CellPack

open Step

namespace Machine

/-- The layout is one of the declared fields, where `first` gives the sizes of records in place. -/
structure Laid (first : String → CellSize) (declared : Shape) (l : Layout) : Prop where
  fields : l.fields = declared.map (·.1)
  omitted : l.omitted = []
  distinct : (declared.map (·.1)).Nodup
  names : l.placements.map (·.field) = declared.map (·.1)
  placed : ∀ pl ∈ l.placements, ∃ type, declared.lookup pl.field = some type
    ∧ type.Lowers pl.op ∧ pl.op.Within first pl.bits pl.refs
  cells : ∃ c rest, l.cells = c :: rest ∧ c.Fits ⟨l.reserved, 0⟩ ∧ ∀ c ∈ rest, c.Fits .zero
  header : ∀ h, l.header = some h → l.reserved = headerBits

/-- The programs under the names of a record type are those of a layout of its fields. -/
structure Code (set : ProgramSet) (first : String → CellSize) (name : String) (declared : Shape)
    (l : Layout) : Prop extends Laid first declared l where
  serializer : set.lookup false (ProcName.store name) = .ok l.serializer
  parser : ∀ mode : ParserMode, mode ≠ .bounced →
    set.lookup true (mode.procedure name) = .ok (l.parser mode)
  first : first name = l.firstCellSize

/-- The programs of all record types are those of layouts, and so are the ones that they run. -/
structure Linked (set : ProgramSet) (shape : String → Option Shape) (first : String → CellSize)
    (records : String → Prop) : Prop where
  code : ∀ name, records name → ∃ declared l, shape name = some declared
    ∧ Code set first name declared l
  mentioned : ∀ name declared, records name → shape name = some declared →
    ∀ d ∈ declared, ∀ other ∈ d.2.mentioned, records other
  first_le : ∀ name, (first name).bits ≤ maxCellBits ∧ (first name).refs ≤ maxCellRefs

/-- No integer in the fields is one of no bits. -/
def Sized (declared : Shape) : Prop := ∀ d ∈ declared, .int 0 ∉ d.2.formats

/-- No record has an integer of no bits. -/
def AllSized (shape : String → Option Shape) (records : String → Prop) : Prop :=
  ∀ name declared, records name → shape name = some declared → Sized declared

end Machine

theorem Layout.firstCellSize_cons {l : Layout} {c : LayoutCell} {rest : List LayoutCell}
    (h : l.cells = c :: rest) (hc : c.used.fitsCell = true) :
    l.firstCellSize = ⟨c.used.bits, c.used.refs + min 1 rest.length⟩ := by
  obtain ⟨hb, hr⟩ := CellSize.fitsCell_iff.1 hc
  simp only [maxCellBits, usableCellRefs, maxCellRefs] at hb hr
  cases rest with
  | nil => rw [firstCellSize, h]; rfl
  | cons next rest =>
    have hlink : min 1 (next :: rest).length = 1 := by simp
    rw [firstCellSize, h, hlink]
    simp only [CellSize.add_eq, CellSize.mk.injEq]
    omega

theorem Layout.firstCellSize_le {l : Layout} {c : LayoutCell} {rest : List LayoutCell}
    (h : l.cells = c :: rest) (hc : c.used.fitsCell = true) :
    l.firstCellSize.bits ≤ maxCellBits ∧ l.firstCellSize.refs ≤ maxCellRefs := by
  rw [firstCellSize_cons h hc]
  obtain ⟨hb, hr⟩ := CellSize.fitsCell_iff.1 hc
  simp only [usableCellRefs, maxCellRefs] at hr ⊢
  exact ⟨hb, by omega⟩

theorem Layout.instrs_parser (l : Layout) {mode : ParserMode} (h : l.omitted = []) :
    (l.parser mode).instrs =
      (if mode = .noHeader then none else l.header.map (Instr.checkHeader 0)).toList
        ++ loadCells 0 l.cells := by
  change _ ++ l.omitted.map _ = _
  rw [h, List.map_nil, List.append_nil]

/-- Without a header, all parsers have the same instructions. -/
theorem Layout.instrs_parser_eq (l : Layout) {mode : ParserMode} (h : l.omitted = [])
    (hmode : mode = .noHeader → l.header = none) :
    (l.parser mode).instrs = (l.parser .withHeader).instrs := by
  rw [l.instrs_parser h, l.instrs_parser h]
  split
  · next hmode' => rw [hmode hmode', Option.map_none, ite_self]
  · rfl

/-- The parser of what is left reads the leading fields, and gives all others a value. -/
theorem Layout.instrs_bounced {l : Layout} {c : LayoutCell} {rest : List LayoutCell}
    (hcells : l.cells = c :: rest) (hc : c.Fits ⟨l.reserved, 0⟩) (id : LayoutId)
    (fields : List Field) :
    ((l.bounced id fields).parser .bounced).instrs =
      (l.header.map (Instr.checkHeader 0)).toList
        ++ (l.leading.map fun pl => .load 0 pl.field pl.op)
        ++ (l.bounced id fields).omitted.map fun d => .setDefault d.1 d.2 := by
  obtain ⟨used, hone, -⟩ := Layout.bounced_cells hcells hc id fields
  have hloads : loadCells 0 (l.bounced id fields).cells =
      l.leading.map fun pl => Instr.load 0 pl.field pl.op := by
    rw [hone, l.leading_eq hcells]
    rfl
  rw [← hloads]
  rfl

theorem Layout.omitted_bounced (l : Layout) (id : LayoutId) (fields : List Field) :
    (l.bounced id fields).omitted =
      (fields.drop l.leading.length).map fun f => (f.name, f.type.defaultValue) := rfl

/-- The bits of the first cell that a serializer leaves to its caller. -/
def Layout.flagBits (l : Layout) : Nat := if l.header.isSome then 0 else l.reserved

theorem Layout.flagBits_le (l : Layout) : l.flagBits ≤ l.reserved := by
  unfold flagBits
  split
  · exact Nat.zero_le _
  · exact le_refl _

/-- What a serializer itself can write to the first cell. -/
def Layout.writtenSize (l : Layout) : CellSize :=
  ⟨l.firstCellSize.bits - l.flagBits, l.firstCellSize.refs⟩

namespace Machine

variable {set : ProgramSet} {limits : Limits} {depth : Nat} {name : String} {declared : Shape}
  {l : Layout} {shape : String → Option Shape} {first : String → CellSize} {valid : Prop}
  {records : String → Prop}

theorem Laid.leading_prefix (laid : Laid first declared l) : l.leading <+: l.placements := by
  obtain ⟨c, rest, hcells, -⟩ := laid.cells
  rw [Layout.placements, hcells, List.flatMap_cons, l.leading_eq hcells]
  exact (List.takeWhile_prefix _).trans (List.prefix_append _ _)

theorem Laid.names_leading (laid : Laid first declared l) :
    l.leading.map (·.field) = (declared.map (·.1)).take l.leading.length := by
  have hprefix := laid.leading_prefix.map (·.field)
  rw [laid.names] at hprefix
  have htake := List.prefix_iff_eq_take.1 hprefix
  rwa [List.length_map] at htake

theorem storesAll_headers {store : String → Builder → Value → Run Builder}
    {load : String → Slice → Run (Value × Slice)} {p q : Program} {v : Value}
    (header : Option UInt32) :
    StoresAll valid store load limits p q v (header.map (Instr.storeHeader 0)).toList
      (header.map (Instr.checkHeader 0)).toList 0 0 True [] (if header.isSome then headerBits else 0)
      0 := by
  cases header with
  | none => exact storesAll_nil 0
  | some header => exact storesAll_header header

/-- The instructions of a serializer write what those of the parser read back. -/
theorem Laid.storesAll {store : String → Builder → Value → Run Builder}
    {load : String → Slice → Run (Value × Slice)} (laid : Laid first declared l)
    (h : ∀ pl ∈ l.placements, StoresPlacement shape valid store load declared pl) (limits : Limits)
    (p q : Program) (v : Value) :
    ∃ opened, StoresAll valid store load limits p q v l.serializer.instrs
      (l.parser .withHeader).instrs 0 opened (∀ pl ∈ l.placements, v.ConformsAt shape declared pl.field)
      (l.placements.filterMap fun pl => v.keptField shape declared pl.field)
      l.writtenSize.bits l.writtenSize.refs := by
  obtain ⟨c, rest, hcells, hc, hrest⟩ := laid.cells
  have hle := hc.contiguous.le
  have hplacements : l.placements = (c :: rest).flatMap (·.placements) := by
    rw [Layout.placements, hcells]
  have hwrite : l.serializer.instrs =
      (l.header.map (Instr.storeHeader 0)).toList ++ Layout.storeCells 0 (c :: rest) := by
    rw [← hcells]
    rfl
  have hread : (l.parser .withHeader).instrs =
      (l.header.map (Instr.checkHeader 0)).toList ++ Layout.loadCells 0 (c :: rest) := by
    rw [l.instrs_parser laid.omitted, hcells]
    rfl
  rw [hplacements] at h ⊢
  rw [hwrite, hread, Layout.writtenSize, Layout.firstCellSize_cons hcells hc.used_fits]
  refine ⟨rest.length, ((storesAll_headers l.header).append
    (storesAll_cells rest c 0 ⟨l.reserved, 0⟩ hc hrest h)).mono (by rw [true_and]) ?_ ?_⟩
  · -- a header takes the bits that the layout reserves
    unfold Layout.flagBits
    cases hheader : l.header with
    | none => simp
    | some header =>
      have hreserved := laid.header header hheader
      simp only [Option.isSome_some, if_true] at hle ⊢
      omega
  · simp

/-! ## Writing -/

/-- The program writes the declared fields of any value as the one that reads them expects. -/
def WritesFields (shape : String → Option Shape) (valid : Prop)
    (store : Builder → Value → Run Builder) (load : Slice → Run (Value × Slice)) (declared : Shape)
    (size : CellSize) : Prop :=
  ∀ (v : Value) (b : Builder) (n : Nat), b.bits.length + size.bits ≤ maxCellBits →
    b.refs.length + size.refs ≤ maxCellRefs →
    Ends (store b v) n
      (fun b' n' => (∀ field ∈ declared.map (·.1), v.ConformsAt shape declared field)
        ∧ Wrote load (.record ((declared.map (·.1)).filterMap (v.keptField shape declared)))
          size.bits size.refs b n b' n')
      fun e _ => Refuses valid (∀ field ∈ declared.map (·.1), v.ConformsAt shape declared field) e

theorem WritesFields.mono {store : Builder → Value → Run Builder}
    {load : Slice → Run (Value × Slice)} {size size' : CellSize}
    (h : WritesFields shape valid store load declared size) (hb : size.bits ≤ size'.bits)
    (hr : size.refs ≤ size'.refs) : WritesFields shape valid store load declared size' := by
  intro v b n hb' hr'
  refine (h v b n (by omega) (by omega)).mono ?_ fun _ _ he => he
  exact fun b' n' hok => ⟨hok.1, hok.2.mono hb hr⟩

/-- The fields of a record are all there is to it. -/
theorem WritesFields.storesRecord {store : String → Builder → Value → Run Builder}
    {load : String → Slice → Run (Value × Slice)} (hshape : shape name = some declared)
    (hdistinct : (declared.map (·.1)).Nodup)
    (h : WritesFields shape valid (store (ProcName.store name)) (load (ProcName.load name)) declared
      (first name)) :
    StoresRecord shape first valid store load name := by
  intro b entries n hb hr
  have hconf := (Value.conformsAt_iff shape entries hdistinct).trans
    (Value.conforms_record hshape).symm
  rw [Value.norm_record hshape]
  refine (h (.record entries) b n hb hr).mono (fun b' n' => ?_) fun e _ he => he.mono hconf.2
  rintro ⟨hc, hwrote⟩
  exact ⟨hconf.1 hc, hwrote⟩

theorem names_kept {v : Value} {names : List String}
    (h : ∀ field ∈ names, v.ConformsAt shape declared field) :
    (names.filterMap (v.keptField shape declared)).map (·.1) = names := by
  induction names with
  | nil => rfl
  | cons field names ih =>
    obtain ⟨hfield, hnames⟩ := List.forall_mem_cons.1 h
    obtain ⟨type, x, -, hx, -⟩ := hfield
    obtain ⟨y, hkept⟩ : ∃ y, v.keptField shape declared field = some (field, y) := by
      rw [Value.keptField, hx]
      exact ⟨_, rfl⟩
    rw [List.filterMap_cons, hkept, List.map_cons, ih hnames]

/-- A serializer writes what its parser reads back if the programs of contained records do. -/
theorem Laid.writesFields (laid : Laid first declared l) {writer reader : String}
    {mode : ParserMode} (hwriter : set.lookup false writer = .ok l.serializer)
    (hreader : set.lookup true reader = .ok (l.parser mode))
    (hmode : mode = .noHeader → l.header = none)
    (h : ∀ pl ∈ l.placements, StoresPlacement shape valid (storeProgram set limits depth)
      (loadRecord set limits depth) declared pl) :
    WritesFields shape valid (storeProgram set limits (depth + 1) writer)
      (loadRecord set limits (depth + 1) reader) declared l.writtenSize := by
  intro v b n hb hr
  obtain ⟨opened, hstores⟩ := laid.storesAll h limits l.serializer (l.parser mode) v
  rw [← l.instrs_parser_eq laid.omitted hmode] at hstores
  have hconf : (∀ pl ∈ l.placements, v.ConformsAt shape declared pl.field)
      ↔ ∀ field ∈ declared.map (·.1), v.ConformsAt shape declared field := by
    rw [← laid.names, List.forall_mem_map]
  have hkept : l.placements.filterMap (fun pl => v.keptField shape declared pl.field) =
      (declared.map (·.1)).filterMap (v.keptField shape declared) := by
    rw [← laid.names, List.filterMap_map]
    rfl
  rw [Ends, run_storeProgram hwriter]
  refine ((hstores [] b n rfl hb hr).mono (fun _ _ h => h) fun e _ he => he.mono hconf.2).bind ?_
  rintro builders n' ⟨hc, e, k, behind, rfl, -, hn, -, he, her, hreads⟩
  rw [hkept] at hreads
  refine ends_pure ⟨hconf.1 hc, e, k, rfl, hn, he, her, ?_⟩
  refine reads_loadRecord hreader hreads ?_ ?_
  · exact (names_kept (hconf.1 hc)).trans laid.fields.symm
  · exact (congrArg List.Nodup laid.fields).mpr laid.distinct

theorem Code.writesFields (code : Code set first name declared l)
    (h : ∀ pl ∈ l.placements, StoresPlacement shape valid (storeProgram set limits depth)
      (loadRecord set limits depth) declared pl) :
    WritesFields shape valid (storeProgram set limits (depth + 1) (ProcName.store name))
      (loadRecord set limits (depth + 1) (ProcName.load name)) declared (first name) := by
  have hfields := code.toLaid.writesFields code.serializer (code.parser .withHeader nofun) nofun h
  rw [code.first]
  exact hfields.mono (Nat.sub_le _ _) (le_refl _)

/-- The fields of a layout are written as they are read if the contained records are. -/
theorem Laid.storesPlacement {store : String → Builder → Value → Run Builder}
    {load : String → Slice → Run (Value × Slice)} (laid : Laid first declared l)
    (hfirst : ∀ name, (first name).bits ≤ maxCellBits ∧ (first name).refs ≤ maxCellRefs)
    (hsized : valid → Sized declared)
    (hcall : ∀ d ∈ declared, ∀ other ∈ d.2.mentioned,
      StoresRecord shape first valid store load other) :
    ∀ pl ∈ l.placements, StoresPlacement shape valid store load declared pl := by
  intro pl hpl
  obtain ⟨type, htype, hlow, hsize⟩ := laid.placed pl hpl
  have hd : (pl.field, type) ∈ declared := mem_of_lookup htype
  exact ⟨type, htype, stores_field hlow (hcall _ hd) hfirst (fun hv => hsized hv _ hd) hsize⟩

/-- Every record of a linked set is written as it is read, however deep programs may be nested. -/
theorem Linked.writesFields (linked : Linked set shape first records)
    (hall : valid → AllSized shape records) (depth : Nat) :
    ∀ name declared, records name → shape name = some declared →
      WritesFields shape valid (storeProgram set limits depth (ProcName.store name))
        (loadRecord set limits depth (ProcName.load name)) declared (first name) := by
  induction depth with
  | zero =>
    intro name declared hname hshape v b n _ _
    obtain ⟨declared', l, -, code⟩ := linked.code name hname
    exact .of_error (run_storeProgram_zero code.serializer b v n) (.inl rfl)
  | succ depth ih =>
    intro name declared hname hshape
    obtain ⟨declared', l, hshape', code⟩ := linked.code name hname
    obtain rfl : declared = declared' := Option.some.inj (hshape.symm.trans hshape')
    -- contained records are written by programs that are nested one level deeper
    refine code.writesFields (code.toLaid.storesPlacement linked.first_le
      (fun hv => hall hv name declared hname hshape) fun d hd other hother => ?_)
    have hrec := linked.mentioned name declared hname hshape d hd other hother
    obtain ⟨fields, l', hfields, code'⟩ := linked.code other hrec
    exact (ih other fields hrec hfields).storesRecord hfields code'.distinct

/-- The fields of a layout are written as they are read if they contain records of the set. -/
theorem Linked.storesPlacement (linked : Linked set shape first records)
    (hall : valid → AllSized shape records) (laid : Laid first declared l)
    (hsized : valid → Sized declared)
    (hmentioned : ∀ d ∈ declared, ∀ other ∈ d.2.mentioned, records other) (depth : Nat) :
    ∀ pl ∈ l.placements, StoresPlacement shape valid (storeProgram set limits depth)
      (loadRecord set limits depth) declared pl := by
  refine laid.storesPlacement linked.first_le hsized fun d hd other hother => ?_
  have hrec := hmentioned d hd other hother
  obtain ⟨fields, l', hfields, code⟩ := linked.code other hrec
  exact (linked.writesFields hall depth other fields hrec hfields).storesRecord hfields
    code.distinct

/-! ## Reading -/

theorem loadsAll_check {load : String → Slice → Run (Value × Slice)} {p : Program}
    {P : String × Value → Prop} (header : Option UInt32) (mode : ParserMode) :
    LoadsAll load limits p P
      (if mode = .noHeader then none else header.map (Instr.checkHeader 0)).toList 0 0 [] := by
  cases header with
  | none =>
    rw [Option.map_none, ite_self]
    exact loadsAll_nil 0
  | some header =>
    split
    · exact loadsAll_nil 0
    · exact loadsAll_checkHeader header rfl

/-- The parser of a record reads exact fields if the programs of contained records do. -/
theorem Code.loadsAll {load : String → Slice → Run (Value × Slice)} {p : Program}
    (code : Code set first name declared l)
    (h : ∀ pl ∈ l.placements, LoadsPlacement shape load declared pl) (mode : ParserMode) :
    ∃ opened, LoadsAll load limits p (ExactField shape declared) (l.parser mode).instrs 0 opened
      (declared.map (·.1)) := by
  obtain ⟨c, rest, hcells, -⟩ := code.cells
  have hplacements : l.placements = (c :: rest).flatMap (·.placements) := by
    rw [Layout.placements, hcells]
  rw [l.instrs_parser code.omitted, ← code.names, hcells]
  rw [hplacements] at h ⊢
  exact ⟨_, (loadsAll_check l.header mode).append (loadsAll_cells rest c 0 h)⟩

/-- So does the parser of what is left of a message, which gives all other fields a value. -/
theorem Code.loadsAll_bounced {load : String → Slice → Run (Value × Slice)} {p : Program}
    (code : Code set first name declared l)
    (h : ∀ pl ∈ l.placements, LoadsPlacement shape load declared pl) (id : LayoutId)
    {fields : List Field} (hfields : fields.map (·.name) = declared.map (·.1)) :
    ∃ opened, LoadsAll load limits p (fun _ => True) ((l.bounced id fields).parser .bounced).instrs
      0 opened (declared.map (·.1)) := by
  obtain ⟨c, rest, hcells, hc, -⟩ := code.cells
  have hplaced : ∀ pl ∈ l.leading, LoadsPlacement shape load declared pl :=
    fun pl hpl => h pl (code.leading_prefix.subset hpl)
  have hnames : l.leading.map (·.field) ++ (l.bounced id fields).omitted.map (·.1) =
      declared.map (·.1) := by
    have homitted : (l.bounced id fields).omitted.map (·.1) =
        (declared.map (·.1)).drop l.leading.length := by
      rw [← hfields, l.omitted_bounced, List.map_map, ← List.map_drop]
      rfl
    rw [code.names_leading, homitted, List.take_append_drop]
  have hcheck : LoadsAll load limits p (fun _ => True)
      (l.header.map (Instr.checkHeader 0)).toList 0 0 [] := loadsAll_check l.header .bounced
  have hread := hcheck.append ((loadsAll_placements 0 hplaced).mono fun _ _ => trivial)
  rw [Layout.instrs_bounced hcells hc, ← hnames]
  exact ⟨_, hread.append (loadsAll_setDefaults _ 0)⟩

/-- A parser whose contained records are read as exact ones reads an exact record. -/
theorem Code.ends_load (code : Code set first name declared l) (hshape : shape name = some declared)
    (h : ∀ pl ∈ l.placements, LoadsPlacement shape (loadRecord set limits depth) declared pl)
    {mode : ParserMode} (hmode : mode ≠ .bounced) (s : Slice) (n : Nat) :
    Ends (loadRecord set limits (depth + 1) (mode.procedure name) s) n
      (fun r _ => r.1.Exact shape (.record name)) fun e _ => Rejects e := by
  obtain ⟨opened, hloads⟩ := code.loadsAll h mode
  have hfields : (l.parser mode).fields = declared.map (·.1) := code.fields
  rw [← hfields] at hloads
  have hdistinct : (l.parser mode).fields.Nodup := hfields ▸ code.distinct
  refine (ends_loadRecord (code.parser mode hmode) hloads hdistinct s n).mono ?_ fun _ _ he => he
  rintro ⟨v, rest⟩ n' ⟨fields, rfl, hnames, hexact⟩
  exact Value.exact_record hshape code.distinct (hnames.trans hfields) hexact

theorem Linked.loadsPlacement (linked : Linked set shape first records)
    (hcall : ∀ name, records name → LoadsRecord shape (loadRecord set limits depth) name)
    (hname : records name) (hshape : shape name = some declared)
    (code : Code set first name declared l) :
    ∀ pl ∈ l.placements, LoadsPlacement shape (loadRecord set limits depth) declared pl := by
  intro pl hpl
  obtain ⟨type, htype, hlow, -⟩ := code.placed pl hpl
  refine ⟨type, htype, ends_loadOp hlow fun other hother => hcall other ?_⟩
  exact linked.mentioned name declared hname hshape _ (mem_of_lookup htype) other hother

/-- Every record of a linked set is read as an exact one, however deep programs may be nested. -/
theorem Linked.loadsRecord (linked : Linked set shape first records) (depth : Nat) :
    ∀ name, records name → LoadsRecord shape (loadRecord set limits depth) name := by
  induction depth with
  | zero =>
    intro name hname s n
    obtain ⟨declared, l, -, code⟩ := linked.code name hname
    exact ends_loadRecord_zero (code.parser .withHeader nofun) s n
  | succ depth ih =>
    intro name hname s n
    obtain ⟨declared, l, hshape, code⟩ := linked.code name hname
    have hmode : ParserMode.withHeader ≠ .bounced := nofun
    exact code.ends_load hshape (linked.loadsPlacement ih hname hshape code) hmode s n

/-- Both parsers of a record read an exact one from any cell. -/
theorem Linked.ends_load (linked : Linked set shape first records) (hname : records name)
    {mode : ParserMode} (hmode : mode ≠ .bounced) (depth : Nat) (s : Slice) (n : Nat) :
    Ends (loadRecord set limits depth (mode.procedure name) s) n
      (fun r _ => r.1.Exact shape (.record name)) fun e _ => Rejects e := by
  obtain ⟨declared, l, hshape, code⟩ := linked.code name hname
  cases depth with
  | zero => exact ends_loadRecord_zero (code.parser mode hmode) s n
  | succ depth =>
    refine code.ends_load hshape ?_ hmode s n
    exact linked.loadsPlacement (linked.loadsRecord depth) hname hshape code

/-- The parser of what is left of a message reads a record from any cell. -/
theorem Linked.ends_loadBounced (linked : Linked set shape first records) (hname : records name)
    (hshape : shape name = some declared) (code : Code set first name declared l) {id : LayoutId}
    {fields : List Field} (hfields : fields.map (·.name) = declared.map (·.1))
    (h : set.lookup true (ProcName.loadBounced name) = .ok ((l.bounced id fields).parser .bounced))
    (depth : Nat) (s : Slice) (n : Nat) :
    Ends (loadRecord set limits depth (ProcName.loadBounced name) s) n (fun _ _ => True)
      fun e _ => Rejects e := by
  cases depth with
  | zero => exact ends_loadRecord_zero h s n
  | succ depth =>
    have hplaced : ∀ pl ∈ l.placements,
        LoadsPlacement shape (loadRecord set limits depth) declared pl :=
      linked.loadsPlacement (linked.loadsRecord depth) hname hshape code
    obtain ⟨opened, hloads⟩ := code.loadsAll_bounced hplaced id hfields
    rw [← hfields] at hloads
    have hdistinct : (fields.map (·.name)).Nodup := hfields ▸ code.distinct
    exact (ends_loadRecord h hloads hdistinct s n).mono (fun _ _ _ => trivial) fun _ _ he => he

end Machine
end CellPack
