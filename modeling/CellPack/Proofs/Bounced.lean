import Mathlib
import CellPack.Proofs.Messages
/-!
# What is left of a message

The leading fields of a message that have no references are written to its first cell before any
reference. Whatever references a cell with the same bits has, they are read back from it, and all
other fields get a value without reading (`Artifact.parseBounced_leading`).
-/

namespace CellPack

open Step

/-! ## Fields that did not come back -/

/-- The value of a field that did not come back. -/
def FieldType.blank : FieldType → Value
  | int _ => .int 0
  | bool => .bool false
  | _ => .null

theorem Machine.ofDefault_defaultValue (type : FieldType) :
    ofDefault type.defaultValue = type.blank := by
  cases type <;> rfl

/-! ## Writing the leading fields first -/

namespace Layout

theorem storeCells_append (index : Nat) (pls pls' : List Placement) (used : CellSize)
    (rest : List LayoutCell) : storeCells index (⟨pls ++ pls', used⟩ :: rest) =
      (pls.map fun pl => Instr.store index pl.field pl.op)
        ++ storeCells index (⟨pls', used⟩ :: rest) := by
  unfold storeCells
  rw [List.map_append]
  split
  · rfl
  · simp only [List.append_assoc]

/-- A chain has an instruction for each of its fields. -/
theorem length_le_storeCells (cells : List LayoutCell) :
    ∀ index, (cells.flatMap (·.placements)).length ≤ (storeCells index cells).length := by
  induction cells with
  | nil => exact fun _ => le_refl 0
  | cons c rest ih =>
    intro index
    have hrest := ih (index + 1)
    rw [List.flatMap_cons, List.length_append]
    unfold storeCells
    split
    · next hempty => simp [List.isEmpty_iff.1 hempty]
    · simp only [List.length_append, List.length_map, List.length_cons]
      omega

end Layout

namespace Machine

variable {shape : String → Option Shape} {first : String → CellSize} {valid : Prop}
  {store : String → Builder → Value → Run Builder} {load : String → Slice → Run (Value × Slice)}
  {declared : Shape} {l : Layout}

/-- The leading fields, and what the serializer writes behind them: the rest of the first cell. -/
theorem Laid.split_leading (laid : Laid first declared l) :
    ∃ (behind : LayoutCell) (rest : List LayoutCell) (border : CellSize),
      Contiguous ⟨l.reserved, 0⟩ l.leading border ∧ border.refs = 0 ∧ behind.Fits border
        ∧ (∀ c ∈ rest, c.Fits .zero)
        ∧ l.placements = l.leading ++ (behind :: rest).flatMap (·.placements)
        ∧ l.serializer.instrs = ((l.header.map (Instr.storeHeader 0)).toList
          ++ l.leading.map fun pl => .store 0 pl.field pl.op)
            ++ Layout.storeCells 0 (behind :: rest) := by
  obtain ⟨c, rest, hcells, hc, hrest⟩ := laid.cells
  obtain ⟨pls, hsplit⟩ : ∃ pls, c.placements = l.leading ++ pls :=
    ⟨_, by rw [l.leading_eq hcells, List.takeWhile_append_dropWhile]⟩
  obtain ⟨border, hleading, hbehind⟩ : ∃ border, Contiguous ⟨l.reserved, 0⟩ l.leading border
      ∧ Contiguous border pls c.used := (hsplit ▸ hc.contiguous).split
  refine ⟨⟨pls, c.used⟩, rest, border, hleading, ?_, ⟨hc.used_fits, hbehind⟩, hrest, ?_, ?_⟩
  · refine hleading.refs_eq fun pl hpl => ?_
    rw [l.leading_eq hcells] at hpl
    simpa using List.mem_takeWhile_imp hpl
  · rw [Layout.placements, hcells, List.flatMap_cons, hsplit, List.append_assoc]
    rfl
  · rw [List.append_assoc, ← Layout.storeCells_append, ← hsplit, ← hcells]
    rfl

/-- The header and the leading fields are read back from where they are written. -/
theorem Laid.storesAll_leading (laid : Laid first declared l)
    (h : ∀ pl ∈ l.placements, StoresPlacement shape valid store load declared pl) (limits : Limits)
    (p q : Program) (v : Value) {border : CellSize}
    (hleading : Contiguous ⟨l.reserved, 0⟩ l.leading border) (hborder : border.refs = 0) :
    StoresAll valid store load limits p q v
      ((l.header.map (Instr.storeHeader 0)).toList
        ++ l.leading.map fun pl => .store 0 pl.field pl.op)
      ((l.header.map (Instr.checkHeader 0)).toList
        ++ l.leading.map fun pl => .load 0 pl.field pl.op) 0 0
      (∀ pl ∈ l.leading, v.ConformsAt shape declared pl.field)
      (l.leading.filterMap fun pl => v.keptField shape declared pl.field) border.bits 0 := by
  have hfields : StoresAll valid store load limits p q v _ _ 0 0 _ _ _ _ :=
    storesAll_placements 0 hleading fun pl hpl => h pl (laid.leading_prefix.subset hpl)
  refine ((storesAll_headers l.header).append hfields).mono (by rw [true_and]) ?_ (by simp [hborder])
  obtain ⟨hreserved, -⟩ := hleading.le
  simp only at hreserved
  -- a header is within the bits that the layout reserves
  cases hheader : l.header with
  | none => simp
  | some header =>
    have := laid.header header hheader
    simp only [Option.isSome_some, if_true]
    omega

/--
A serializer writes bits alone until it comes to the first field with a reference. These bits are
read back as the leading fields, in a step less for each field behind them.
-/
theorem Laid.ends_leading (laid : Laid first declared l)
    (h : ∀ pl ∈ l.placements, StoresPlacement shape valid store load declared pl) (limits : Limits)
    (p q : Program) (v : Value) (n : Nat) :
    Ends (storeAll store limits p v l.serializer.instrs [{}]) n
      (fun builders _ => (∀ pl ∈ l.leading, v.ConformsAt shape declared pl.field)
        ∧ ∃ e e' k, builders.headD {} = e ++ e' ∧ e.refs = []
          ∧ k + (l.placements.length - l.leading.length) ≤ n
          ∧ ReadsAll load limits q ((l.header.map (Instr.checkHeader 0)).toList
            ++ l.leading.map fun pl => .load 0 pl.field pl.op) 0 0 e k
            (l.leading.filterMap fun pl => v.keptField shape declared pl.field))
      fun _ _ => True := by
  obtain ⟨behind, rest, border, hleading, hborder, hfits, hrest, hplacements, hinstrs⟩ :=
    laid.split_leading
  have hfront := laid.storesAll_leading h limits p q v hleading hborder
  obtain ⟨hbits, hrefs⟩ := CellSize.fitsCell_iff.1 hfits.used_fits
  obtain ⟨hused, -⟩ := hfits.contiguous.le
  have hwhole : behind.used.refs - border.refs + min 1 rest.length ≤ maxCellRefs := by
    simp only [usableCellRefs, maxCellRefs] at hrefs ⊢
    omega
  have hback : StoresAll valid store load limits p q v (Layout.storeCells 0 (behind :: rest)) _ 0 _ _
      _ (behind.used.bits - border.bits) maxCellRefs :=
    (storesAll_cells rest behind 0 border hfits hrest fun pl hpl =>
      h pl (hplacements ▸ List.mem_append_right _ hpl)).mono Iff.rfl (le_refl _) hwhole
  rw [hinstrs, storeAll_append]
  refine ((hfront [] {} n rfl ?_ ?_).mono (fun _ _ h => h) fun _ _ _ => trivial).bind ?_
  · simpa using hused.trans hbits
  · simp
  rintro builders n' ⟨hconf, e, k, others, rfl, hothers, rfl, -, he, her, hreads⟩
  obtain rfl := List.eq_nil_of_length_eq_zero hothers
  have hnone : e.refs = [] := List.eq_nil_of_length_eq_zero (Nat.le_zero.1 her)
  rw [Builder.empty_append]
  refine (hback [] e n' rfl ?_ ?_).mono ?_ fun _ _ _ => trivial
  · omega
  · simp [hnone]
  rintro builders n'' ⟨-, e', k', others, rfl, -, rfl, hk', -, -, -⟩
  have hcount := Layout.length_le_storeCells (behind :: rest) 0
  refine ⟨hconf, e, e', k, rfl, hnone, ?_, hreads⟩
  rw [hplacements, List.length_append]
  omega

/-! ## What is left of a value -/

/-- What is left of a value: its leading fields as they are kept, and a value for all others. -/
def leftOver (shape : String → Option Shape) (declared : Shape) (l : Layout) (v : Value) :
    List (String × Value) :=
  (l.leading.filterMap fun pl => v.keptField shape declared pl.field)
    ++ (declared.drop l.leading.length).map fun d => (d.1, d.2.blank)

theorem names_leading_kept {v : Value}
    (hconf : ∀ pl ∈ l.leading, v.ConformsAt shape declared pl.field) :
    (l.leading.filterMap fun pl => v.keptField shape declared pl.field).map (·.1) =
      l.leading.map (·.field) := by
  have hnames := names_kept (List.forall_mem_map.2 hconf)
  rwa [List.filterMap_map] at hnames

/-- The leading fields are kept as they are in the whole value. -/
theorem Laid.lookup_leading (laid : Laid first declared l) {name : String}
    (hshape : shape name = some declared) {v : Value}
    (hconf : ∀ pl ∈ l.leading, v.ConformsAt shape declared pl.field) {d : String × FieldType}
    (hd : d ∈ declared.take l.leading.length) :
    (leftOver shape declared l v).lookup d.1 = (v.norm shape (.record name)).get? d.1 := by
  have hnames : (l.leading.filterMap fun pl => v.keptField shape declared pl.field) =
      ((declared.map (·.1)).take l.leading.length).filterMap (v.keptField shape declared) := by
    rw [← laid.names_leading, List.filterMap_map]
    rfl
  obtain ⟨pl, hpl, hname⟩ : ∃ pl ∈ l.leading, pl.field = d.1 := by
    have := List.mem_map_of_mem hd (f := (·.1))
    rw [List.map_take, ← laid.names_leading] at this
    exact List.mem_map.1 this
  obtain ⟨type, x, -, hx, -⟩ := hconf pl hpl
  -- only a record has a field
  cases v with
  | record entries =>
    have hlookup : ∃ y, ((l.leading.filterMap fun pl =>
        (Value.record entries).keptField shape declared pl.field)).lookup d.1 = some y := by
      refine exists_lookup ?_
      rw [names_leading_kept hconf, ← hname]
      exact List.mem_map_of_mem hpl
    obtain ⟨y, hy⟩ := hlookup
    rw [Value.norm_record hshape]
    change _ = List.lookup _ _
    rw [← List.take_append_drop l.leading.length (declared.map (·.1)), List.filterMap_append,
      ← hnames, leftOver, List.lookup_append, List.lookup_append, hy]
    rfl
  | _ => cases hx

theorem Laid.names_leftOver (laid : Laid first declared l) {v : Value}
    (hconf : ∀ pl ∈ l.leading, v.ConformsAt shape declared pl.field) :
    (leftOver shape declared l v).map (·.1) = declared.map (·.1) := by
  rw [leftOver, List.map_append, names_leading_kept hconf, laid.names_leading, List.map_map]
  exact List.map_drop ▸ List.take_append_drop _ _

/-- All other fields have a value without reading. -/
theorem Laid.lookup_blank (laid : Laid first declared l) {v : Value}
    (hconf : ∀ pl ∈ l.leading, v.ConformsAt shape declared pl.field) {d : String × FieldType}
    (hd : d ∈ declared.drop l.leading.length) :
    (leftOver shape declared l v).lookup d.1 = some d.2.blank := by
  have hdistinct : ((leftOver shape declared l v).map (·.1)).Nodup :=
    laid.names_leftOver hconf ▸ laid.distinct
  have hmem : (d.1, d.2.blank) ∈ leftOver shape declared l v :=
    List.mem_append_right _ (List.mem_map_of_mem hd)
  exact lookup_of_mem hdistinct hmem

/-! ## Reading the leading fields -/

/-- Fields that are given a value without reading take a step each. -/
theorem run_setBlanks (load : String → Slice → Run (Value × Slice)) (limits : Limits) (p : Program)
    (slices : List Slice) (fields : Shape) :
    ∀ (loaded : List (String × Value)) (n : Nat), fields.length ≤ n →
      (loadAll load limits p (fields.map fun d => .setDefault d.1 d.2.defaultValue)
        ⟨slices, loaded⟩).run n =
          (.ok ⟨slices, loaded ++ fields.map fun d => (d.1, d.2.blank)⟩, n - fields.length) := by
  induction fields with
  | nil =>
    intro loaded n _
    rw [List.map_nil, List.map_nil, List.append_nil]
    rfl
  | cons d fields ih =>
    intro loaded n hn
    obtain ⟨n, rfl⟩ := Nat.exists_eq_add_of_le' (Nat.le_of_add_left_le hn)
    have hone : (loadAll load limits p [.setDefault d.1 d.2.defaultValue] ⟨slices, loaded⟩).run
        (n + 1) = (.ok ⟨slices, loaded ++ [(d.1, d.2.blank)]⟩, n) := by
      rw [← ofDefault_defaultValue]
      exact run_loadAll_one rfl
    rw [List.map_cons, ← List.singleton_append, loadAll_append, run_bind_ok hone,
      ih _ n (by simpa using hn)]
    simp

/-- The parser of what is left reads the leading fields, and all others become blank. -/
theorem Laid.instrs_bounced (laid : Laid first declared l) (id : LayoutId) {fields : List Field}
    (hfields : Field.shape fields = declared) :
    ((l.bounced id fields).parser .bounced).instrs =
      (l.header.map (Instr.checkHeader 0)).toList
        ++ (l.leading.map fun pl => .load 0 pl.field pl.op)
        ++ (declared.drop l.leading.length).map fun d => .setDefault d.1 d.2.defaultValue := by
  obtain ⟨c, rest, hcells, hc, -⟩ := laid.cells
  rw [Layout.instrs_bounced hcells hc, l.omitted_bounced, ← hfields, Field.shape, ← List.map_drop,
    List.map_map, List.map_map]
  rfl

section
variable {set : ProgramSet} {limits : Limits} {depth : Nat}

/-- What is left of a message is read as its leading fields, and all others are blank. -/
theorem Laid.run_loadBounced (laid : Laid first declared l) {id : LayoutId} {fields : List Field}
    (hshape : Field.shape fields = declared) {p : Program}
    (hp : p = (l.bounced id fields).parser .bounced) {reader : String}
    (hreader : set.lookup true reader = .ok p) {v : Value}
    (hconf : ∀ pl ∈ l.leading, v.ConformsAt shape declared pl.field) {e : Builder} {k : Nat}
    (hreads : ReadsAll (loadRecord set limits depth) limits p
      ((l.header.map (Instr.checkHeader 0)).toList
        ++ l.leading.map fun pl => .load 0 pl.field pl.op) 0 0 e k
      (l.leading.filterMap fun pl => v.keptField shape declared pl.field)) (rest : Slice) {n : Nat}
    (hn : k + (l.placements.length - l.leading.length) ≤ n) :
    ((loadRecord set limits (depth + 1) reader (e.onto rest)).run n).1 =
      .ok (.record (leftOver shape declared l v), rest) := by
  obtain ⟨used, hused, hl⟩ := hreads
  obtain ⟨behind, hbehind, hrun⟩ := hl [] rest [] n rfl (by omega)
  obtain rfl := List.eq_nil_of_length_eq_zero hbehind
  have hcount : (declared.drop l.leading.length).length =
      l.placements.length - l.leading.length := by
    have hlength := congrArg List.length laid.names
    rw [List.length_map, List.length_map] at hlength
    rw [List.length_drop, hlength]
  have hblanks := run_setBlanks (loadRecord set limits depth) limits p [rest]
    (declared.drop l.leading.length)
    (l.leading.filterMap fun pl => v.keptField shape declared pl.field) (n - used) (by omega)
  have hinstrs := laid.instrs_bounced id hshape
  rw [← hp] at hinstrs
  have hall : (loadAll (loadRecord set limits depth) limits p p.instrs
      { slices := [e.onto rest] }).run n = (.ok ⟨[rest], leftOver shape declared l v⟩,
        n - used - (declared.drop l.leading.length).length) := by
    rw [hinstrs, loadAll_append]
    exact (run_bind_ok hrun).trans hblanks
  have hfields : p.fields = declared.map (·.1) := by
    rw [hp, ← hshape, Field.map_shape]
    rfl
  -- the fields that were read come first, so they are all of them in their order
  have hnames : (leftOver shape declared l v).map (·.1) = p.fields :=
    (laid.names_leftOver hconf).trans hfields.symm
  rw [run_loadRecord hreader hall hnames (hfields ▸ laid.distinct)]

end

/--
Whatever references a cell has, the leading fields of a message with the bits of the cell are read
from it.
-/
theorem Linked.parseBounced {m : Machine} {records : String → Prop} {name : String}
    (linked : Linked m.programs shape first records) (hname : records name)
    (hshape : shape name = some declared) (code : Code m.programs first name declared l)
    {id : LayoutId} {fields : List Field} (hfields : Field.shape fields = declared)
    (hlookup : m.programs.lookup true (ProcName.loadBounced name) =
      .ok ((l.bounced id fields).parser .bounced))
    {v : Value} {c c' : Cell} (hc : m.serialize name v = .ok c) (hbits : c'.bits = c.bits) :
    (∀ pl ∈ l.leading, v.ConformsAt shape declared pl.field)
      ∧ m.parseBounced name c' = .ok (.record (leftOver shape declared l v)) := by
  obtain ⟨depth, builders, n', hdepth, rfl, hstore⟩ := exists_storeAll code.serializer hc
  have hmentioned := linked.mentioned name declared hname hshape
  have hplaced : ∀ pl ∈ l.placements, StoresPlacement shape False
      (storeProgram m.programs m.limits depth) (loadRecord m.programs m.limits depth) declared pl :=
    linked.storesPlacement nofun code.toLaid nofun hmentioned depth
  obtain ⟨hconf, e, e', k, hsplit, hnone, hk, hreads⟩ :=
    (code.toLaid.ends_leading hplaced m.limits _ _ v _).ok_of_run hstore
  have hslice : c'.toSlice = e.onto ⟨e'.bits, c'.refs⟩ := by
    rw [Cell.toSlice, hbits, hsplit]
    simp [Builder.onto, Builder.toCell, Cell.bits, hnone]
  refine ⟨hconf, ?_⟩
  rw [Machine.parseBounced, loadFrom_eq, hdepth, hslice,
    code.toLaid.run_loadBounced hfields rfl hlookup hconf hreads _ hk]
  rfl

end Machine

namespace Artifact

variable {s : TypeStore} {o : CompileOptions} {tools : Toolchain} {art : Artifact}

/--
A message that was written has a parser for what is left of it: from any cell with the bits of the
first one it reads a record of the declared fields. The leading fields of the first cell that have
no references are kept as writing keeps them, and all others are blank.
-/
theorem parseBounced_leading (hart : s.compile o tools = .ok art) (hplain : s.PlainNames)
    (hdistinct : s.DistinctFields) {name : String} {t : RecordType} (ht : s.get? name = some t)
    (hmessage : t.isMessage = true) :
    ∃ a l, s.analyze tools.evaluator = .ok a ∧ a.layouts.get? (.full name) = some l
      ∧ ∀ limits v c c', (art.machine limits).serialize name v = .ok c → c'.bits = c.bits →
        ∃ entries, (art.machine limits).parseBounced name c' = .ok (.record entries)
          ∧ entries.map (·.1) = t.fields.map (·.name)
          ∧ (∀ f ∈ t.fields.take l.leading.length,
            entries.lookup f.name = (Value.norm s.shape (.record name) v).get? f.name)
          ∧ ∀ f ∈ t.fields.drop l.leading.length, entries.lookup f.name = some f.type.blank := by
  obtain ⟨a, link, hanalyze, ha, hprograms, linked⟩ := exists_analysis hart hplain hdistinct
  obtain ⟨t', l, hshape, message⟩ := ha.message hplain hdistinct link ht hmessage
  -- the analysed type has the fields of the declared one
  have hfields : Field.shape t'.fields = Field.shape t.fields := by
    rw [TypeStore.shape, ht] at hshape
    exact (Option.some.inj hshape).symm
  have code := message.code
  have hlookup := message.bounced
  rw [← hprograms] at code hlookup
  have laid := code.toLaid
  refine ⟨a, l, hanalyze, message.layout, fun limits v c c' hc hbits => ?_⟩
  obtain ⟨hconf, hparse⟩ := Machine.Linked.parseBounced (m := art.machine limits) linked
    (.of_message ht hmessage) hshape code rfl hlookup hc hbits
  refine ⟨_, hparse, ?_, fun f hf => ?_, fun f hf => ?_⟩
  · rw [laid.names_leftOver hconf, hfields, Field.map_shape]
  · have hd : (f.name, f.type) ∈ (Field.shape t'.fields).take l.leading.length := by
      rw [hfields, Field.shape, ← List.map_take]
      exact List.mem_map_of_mem hf
    exact laid.lookup_leading hshape hconf hd
  · have hd : (f.name, f.type) ∈ (Field.shape t'.fields).drop l.leading.length := by
      rw [hfields, Field.shape, ← List.map_drop]
      exact List.mem_map_of_mem hf
    exact laid.lookup_blank hconf hd

/-- The amount and the tag of a deposit are read, its note ends what is left. -/
theorem leading_samplePut {a : Analysis} {l : Layout} (ha : sampleBank.analyze Expr.evaluate = .ok a)
    (hl : a.layouts.get? (.full "Put") = some l) : l.leading.length = 2 := by
  have hrun : (sampleBank.analyze Expr.evaluate).toOption.all (fun a =>
      (a.layouts.get? (.full "Put")).all fun l => l.leading.length = 2) = true := by decide +kernel
  rw [ha] at hrun
  change (a.layouts.get? (.full "Put")).all (fun l => l.leading.length = 2) = true at hrun
  rw [hl] at hrun
  exact of_decide_eq_true hrun

/-- A deposit that comes back without the cell of its note. -/
theorem parseBounced_leading_sample : ∃ art c entries,
    sampleBank.compile { entry := "Bank" } = .ok art
      ∧ (art.machine {}).serialize "Put" (.record samplePut) = .ok c
      ∧ (art.machine {}).parseBounced "Put" (.mk c.bits []) = .ok (.record entries)
      ∧ entries.map (·.1) = ["amount", "tag", "note", "count", "last"]
      ∧ entries.lookup "tag" = some (.record [("mark", .bits [0xab, 0xc0]), ("open", .bool true)])
      ∧ entries.lookup "note" = some .null ∧ entries.lookup "count" = some (.int 0) := by
  obtain ⟨art, hart⟩ := exists_sampleBank
  obtain ⟨c, hc⟩ := exists_serialize_samplePut hart
  obtain ⟨t, ht, hmessage, hfields⟩ : ∃ t, sampleBank.get? "Put" = some t ∧ t.isMessage = true
      ∧ t.fields =
        [{ name := "amount", type := .int .coins }, { name := "tag", type := .record "Tag" },
          { name := "note", type := .string }, { name := "count", type := .int (.uint 8) },
          { name := "last", type := .bool }] := ⟨_, rfl, rfl, rfl⟩
  obtain ⟨a, l, ha, hl, hleft⟩ :=
    parseBounced_leading hart plainNames_sampleBank distinctFields_sampleBank ht hmessage
  obtain ⟨entries, hparse, hnames, hkept, hblank⟩ := hleft {} _ c (.mk c.bits []) hc rfl
  rw [leading_samplePut ha hl, hfields] at hkept hblank
  refine ⟨art, c, entries, hart, hc, hparse, ?_, ?_, ?_, ?_⟩
  · rw [hnames, hfields]
    rfl
  · exact hkept { name := "tag", type := .record "Tag" } (by simp)
  · exact hblank { name := "note", type := .string } (by simp)
  · exact hblank { name := "count", type := .int (.uint 8) } (by simp)

/-- Not even the leading fields are what they were: bits that the type does not have are lost. -/
theorem parseBounced_leading_cut : ¬∀ (s : TypeStore) (o : CompileOptions) (tools : Toolchain)
    (art : Artifact), s.compile o tools = .ok art → s.PlainNames → s.DistinctFields →
    s.NamedFormats → ∀ (name : String) (t : RecordType), s.get? name = some t →
    t.isMessage = true → ∃ a l, s.analyze tools.evaluator = .ok a
      ∧ a.layouts.get? (.full name) = some l
      ∧ ∀ limits v c c', (art.machine limits).serialize name v = .ok c → c'.bits = c.bits →
        ∃ entries, (art.machine limits).parseBounced name c' = .ok (.record entries)
          ∧ entries.map (·.1) = t.fields.map (·.name)
          ∧ (∀ f ∈ t.fields.take l.leading.length, entries.lookup f.name =
            (Value.rebuild (fun _ v => v) s.shape (.record name) v).get? f.name)
          ∧ ∀ f ∈ t.fields.drop l.leading.length, entries.lookup f.name = some f.type.blank := by
  intro h
  have hrun : (sampleBank.compile { entry := "Bank" }).toOption.any (fun art =>
      (((art.machine {}).serialize "Put" (.record samplePut)).bind fun c =>
        (art.machine {}).parseBounced "Put" c).toOption.any fun v =>
          v.bytesAt? ["tag", "mark"] = some [0xab, 0xc0]) = true := by decide +kernel
  obtain ⟨art, hart⟩ := exists_sampleBank
  obtain ⟨c, hc⟩ := exists_serialize_samplePut hart
  obtain ⟨t, ht, hmessage, hfields⟩ : ∃ t, sampleBank.get? "Put" = some t ∧ t.isMessage = true
      ∧ { name := "tag", type := .record "Tag" : Field } ∈ t.fields.take 2 := ⟨_, rfl, rfl, by decide⟩
  obtain ⟨a, l, ha, hl, hleft⟩ := h sampleBank _ {} art hart plainNames_sampleBank
    distinctFields_sampleBank namedFormats_sampleBank "Put" t ht hmessage
  obtain ⟨entries, hparse, -, hkept, -⟩ := hleft {} _ c c hc rfl
  rw [leading_samplePut ha hl] at hkept
  have htag : (Value.record entries).get? "tag" = _ := hkept _ hfields
  have hwhole : (Value.record entries).bytesAt? ["tag", "mark"] = some [0xab, 0xcd] := by
    rw [Value.bytesAt?, htag]
    rfl
  rw [hart] at hrun
  simp only [Except.toOption, Option.any_some] at hrun
  rw [hc, Except.bind, hparse] at hrun
  have hcut := hwhole.symm.trans (of_decide_eq_true hrun)
  cases hcut

end Artifact
end CellPack
