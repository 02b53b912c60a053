import Mathlib
import CellPack.Proofs.Chains
import CellPack.Proofs.Contracts
import CellPack.Proofs.Limits
import CellPack.Proofs.Rigid
/-!
# Offsets

A layout says where a field is behind fields of the greatest size that they can have. If all of them
are rigid, the field is there: read from its offset in its cell of the chain, it is what writing has
kept of its value (`Artifact.placements_located`).
-/

namespace CellPack

open Step

/-! ## Pieces in place -/

namespace Builder

variable {P : Placement → Builder → Prop}

/-- In each cell of a chain are its pieces, with more in front in the first one. -/
theorem Carries.follow {cells : List LayoutCell} {e : Builder} (h : e.Carries P cells) :
    ∀ (front : Builder) k cell, cells[k]? = some cell → ∃ pieces tail,
      (front ++ e).toCell.follow k =
          some ((if k = 0 then front else {}) ++ (pieces ++ tail)).toCell
        ∧ pieces.Pieces P cell.placements := by
  induction h with
  | @last c e hpieces =>
    intro front k cell hk
    cases k with
    | zero =>
      obtain rfl : c = cell := Option.some.inj hk
      exact ⟨e, {}, by rw [append_empty]; rfl, hpieces⟩
    | succ k => cases hk
  | @next c next rest e child hpieces _ ih =>
    intro front k cell hk
    cases k with
    | zero =>
      obtain rfl : c = cell := Option.some.inj hk
      exact ⟨e, _, rfl, hpieces⟩
    | succ k =>
      obtain ⟨pieces, tail, hfollow, hin⟩ := ih {} k cell hk
      refine ⟨pieces, tail, ?_, hin⟩
      have hlast : (front ++ (e ++ ofRef child.toCell)).toCell.refs.getLast? = some child.toCell := by
        simp [toCell, Cell.refs]
      rw [Cell.follow, hlast]
      simpa using hfollow

theorem used_append (b e : Builder) :
    (b ++ e).used = ⟨b.used.bits + e.used.bits, b.used.refs + e.used.refs⟩ := by
  simp [used]

/-- Pieces of exactly the sizes of their places end where the last place ends. -/
theorem Pieces.ends_at {pls : List Placement} {e : Builder} (h : e.Pieces P pls)
    (hexact : ∀ pl ∈ pls, ∀ e, P pl e → e.used = pl.size) :
    ∀ {b : Builder} {stop : CellSize}, Contiguous b.used pls stop → (b ++ e).used = stop := by
  induction h with
  | nil =>
    rintro b stop rfl
    rw [append_empty]
  | @cons pl pls e e' hpl _ ih =>
    rintro b stop ⟨-, -, hrest⟩
    obtain ⟨hsize, hsizes⟩ := List.forall_mem_cons.1 hexact
    have hused : (b ++ e).used = ⟨b.used.bits + pl.bits, b.used.refs + pl.refs⟩ := by
      rw [used_append, hsize e hpl, Placement.size]
    rw [← append_assoc]
    exact ih hsizes (hused ▸ hrest)

/-- Behind pieces of exactly the sizes of their places, a piece is at its offsets. -/
theorem Carries.locate {cells : List LayoutCell} {front e : Builder} (h : e.Carries P cells)
    (hfits : ∃ c rest, cells = c :: rest ∧ c.Fits front.used ∧ ∀ c ∈ rest, c.Fits .zero)
    {k : Nat} {cell : LayoutCell} (hk : cells[k]? = some cell) {before behind : List Placement}
    {pl : Placement} (hcell : cell.placements = before ++ pl :: behind)
    (hexact : ∀ other ∈ before, ∀ e, P other e → e.used = other.size) :
    ∃ ahead piece tail, (front ++ e).toCell.follow k = some (ahead ++ (piece ++ tail)).toCell
      ∧ ahead.used = ⟨pl.bitOffset, pl.refOffset⟩ ∧ P pl piece := by
  obtain ⟨pieces, tail, hfollow, hpieces⟩ := h.follow front k cell hk
  generalize hstart : (if k = 0 then front else {}) = start at hfollow
  have hplaces : Contiguous start.used cell.placements cell.used := by
    obtain ⟨c, rest, rfl, hc, hrest⟩ := hfits
    subst hstart
    cases k with
    | zero =>
      obtain rfl : c = cell := Option.some.inj hk
      exact hc.contiguous
    | succ k => exact (hrest cell (List.mem_of_getElem? hk)).contiguous
  rw [hcell] at hplaces hpieces
  obtain ⟨border, hplaces, hbits, hrefs, -⟩ := hplaces.split
  obtain ⟨pieces, behindPieces, rfl, hbefore, hbehind⟩ := hpieces.split
  obtain _ | @⟨_, _, piece, others, hpl, -⟩ := hbehind
  refine ⟨start ++ pieces, piece, others ++ tail, ?_, ?_, hpl⟩
  · simpa only [append_assoc] using hfollow
  · rw [hbits, hrefs]
    exact hbefore.ends_at hexact hplaces

end Builder

/-! ## Other limits -/

namespace Machine

variable {set : ProgramSet} {limits limits' : Limits} {depth : Nat} {op : FieldOp} {s rest : Slice}
  {x : Value}

/-- Reads a field from a slice within the limits. -/
def loadField (m : Machine) (op : FieldOp) (s : Slice) : Except RuntimeError (Value × Slice) :=
  ((loadOp (loadRecord m.programs m.limits m.limits.depth) op s).run m.limits.steps).1

/-- A field that is read without reaching a limit is read alike within larger limits. -/
theorem run_loadOp_of_le (hsteps : limits.steps ≤ limits'.steps) (hdepth : depth ≤ limits'.depth)
    (hstop : ∀ e, ((loadOp (loadRecord set limits depth) op s).run limits.steps).1 = .error e →
      e.isLimit = false) :
    loadField ⟨set, limits'⟩ op s =
      ((loadOp (loadRecord set limits depth) op s).run limits.steps).1 := by
  have hmatches : Run.Matches RuntimeError.isLimit (limits'.steps - limits.steps)
      (loadOp (loadRecord set limits depth) op s)
      (loadOp (loadRecord set limits' limits'.depth) op s) :=
    matches_loadOp (matches_loadRecord rfl (.inr ⟨hdepth, rfl⟩)) op s
  have hrun := hmatches.run_eq hstop
  rwa [Nat.add_sub_cancel' hsteps] at hrun

/--
Within the limits and larger ones, the field is read as the value and leaves the rest. Within others
it is too, unless the run reaches a limit.
-/
def FieldReads (set : ProgramSet) (limits : Limits) (op : FieldOp) (s : Slice) (x : Value)
    (rest : Slice) : Prop :=
  ∀ limits', loadField ⟨set, limits'⟩ op s = .ok (x, rest)
    ∨ ¬limits ≤ limits' ∧ ∃ e, loadField ⟨set, limits'⟩ op s = .error e ∧ e.isLimit = true

theorem fieldReads_of_run (hdepth : depth ≤ limits.depth)
    (h : ((loadOp (loadRecord set limits depth) op s).run limits.steps).1 = .ok (x, rest)) :
    FieldReads set limits op s x rest := by
  have hlarger : ∀ limits', limits ≤ limits' → loadField ⟨set, limits'⟩ op s = .ok (x, rest) := by
    rintro limits' ⟨hsteps, hdepth'⟩
    refine (run_loadOp_of_le hsteps (hdepth.trans hdepth') ?_).trans h
    intro e he
    rw [h] at he
    cases he
  intro limits'
  by_cases hle : limits ≤ limits'
  · exact .inl (hlarger limits' hle)
  -- compare with limits that are larger than both
  have hboth := hlarger ⟨max limits.steps limits'.steps, max limits.depth limits'.depth⟩
    ⟨le_max_left _ _, le_max_left _ _⟩
  by_cases hstop : ∃ e, loadField ⟨set, limits'⟩ op s = .error e ∧ e.isLimit = true
  · exact .inr ⟨hle, hstop⟩
  · refine .inl ((run_loadOp_of_le (le_max_right _ _) (le_max_right _ _) fun e he => ?_).symm.trans hboth)
    by_contra hlimit
    exact hstop ⟨e, he, by simpa using hlimit⟩

/-! ## Fields in place -/

/--
In the chain that starts with the cell, each field that only rigid ones stand before is at the
offsets of its placement, reads as what is kept of it, and ends where the placement does if it is
rigid itself.
-/
def Locates (set : ProgramSet) (limits : Limits) (rigid : FieldOp → Prop) (l : Layout)
    (kept : Value) (c : Cell) : Prop :=
  ∀ k cell before pl behind, l.cells[k]? = some cell → cell.placements = before ++ pl :: behind →
    (∀ other ∈ before, rigid other.op) →
    ∃ found s x rest, c.follow k = some found
      ∧ found.toSlice.Leaves ⟨pl.bitOffset, pl.refOffset⟩ s
      ∧ kept.get? pl.field = some x ∧ FieldReads set limits pl.op s x rest
      ∧ (rigid pl.op →
        found.toSlice.Leaves ⟨pl.bitOffset + pl.bits, pl.refOffset + pl.refs⟩ rest)

variable {shape : String → Option Shape} {declared : Shape} {v : Value} {most : Nat}
  {load : String → Slice → Run (Value × Slice)}

/-- The piece of a field that is read from exactly its size has this size. -/
theorem Piece.used_eq {pl : Placement} {e : Builder} (h : Piece shape load declared v most pl e)
    (htakes : Run.Takes (loadOp load pl.op) pl.size) : e.used = pl.size := by
  obtain ⟨x, -, used, -, hreads⟩ := h.reads
  have htaken := (htakes (e.onto ⟨[], []⟩) used).ok_of_run (hreads ⟨[], []⟩ used (le_refl used))
  exact Builder.used_eq_of_leaves htaken

theorem locates_of_carries {rigid : FieldOp → Prop} {l : Layout} {kept : Value} {front e : Builder}
    (hcarries : e.Carries (Piece shape (loadRecord set limits depth) declared v limits.steps) l.cells)
    (hdepth : depth ≤ limits.depth)
    (hfits : ∃ c rest, l.cells = c :: rest ∧ c.Fits front.used ∧ ∀ c ∈ rest, c.Fits .zero)
    (hrigid : ∀ pl ∈ l.placements, rigid pl.op →
      Run.Takes (loadOp (loadRecord set limits depth) pl.op) pl.size)
    (hkept : ∀ pl ∈ l.placements, ∀ x,
      v.keptField shape declared pl.field = some (pl.field, x) → kept.get? pl.field = some x) :
    Locates set limits rigid l kept (front ++ e).toCell := by
  intro k cell before pl behind hk hcell hbefore
  have hmem : ∀ other ∈ before ++ pl :: behind, other ∈ l.placements := fun other hother =>
    List.mem_flatMap.2 ⟨cell, List.mem_of_getElem? hk, hcell ▸ hother⟩
  have hpl : pl ∈ l.placements := hmem pl (by simp)
  obtain ⟨ahead, piece, tail, hfollow, hahead, hpiece⟩ := hcarries.locate hfits hk hcell
    fun other hother e he =>
      he.used_eq (hrigid other (hmem other (List.mem_append_left _ hother)) (hbefore other hother))
  obtain ⟨x, hx, used, hsteps, hreads⟩ := hpiece.reads
  have hstart := Builder.leaves_append ahead (piece ++ tail)
  rw [hahead] at hstart
  have hread := hreads tail.toCell.toSlice limits.steps hsteps
  rw [Builder.toSlice_toCell, ← Builder.onto_append, ← Builder.toSlice_toCell,
    ← Builder.toSlice_toCell] at hread
  refine ⟨_, _, x, tail.toCell.toSlice, hfollow, hstart, hkept pl hpl x hx, ?_, fun hr => ?_⟩
  · exact fieldReads_of_run hdepth (congrArg Prod.fst hread)
  · have hend := Builder.leaves_append (ahead ++ piece) tail
    rw [Builder.used_append, hahead, hpiece.used_eq (hrigid pl hpl hr), Builder.append_assoc] at hend
    exact hend

end Machine

/-! ## What is kept of a field -/

namespace Value

variable {shape : String → Option Shape} {declared : Shape} {v : Value} {field name : String}
  {x : Value}

/-- The entries of a record. -/
def entries : Value → List (String × Value)
  | record entries => entries
  | _ => []

theorem keptField_entries (v : Value) (field : String) :
    (record v.entries).keptField shape declared field = v.keptField shape declared field := by
  cases v <;> rfl

theorem lookup_kept {names : List String} (hfield : field ∈ names)
    (hx : v.keptField shape declared field = some (field, x)) :
    (names.filterMap (v.keptField shape declared)).lookup field = some x := by
  induction names with
  | nil => cases hfield
  | cons name names ih =>
    by_cases hname : field = name
    · subst hname
      rw [List.filterMap_cons, hx]
      exact List.lookup_cons_self
    · have hrest := ih ((List.mem_cons.1 hfield).resolve_left hname)
      rw [List.filterMap_cons]
      split
      · exact hrest
      · next entry hentry =>
        obtain ⟨y, -, rfl⟩ := Option.map_eq_some_iff.1 hentry
        rw [List.lookup_cons, beq_eq_false_iff_ne.2 hname]
        exact hrest

theorem get?_norm (hshape : shape name = some declared) (hfield : field ∈ declared.map (·.1))
    (hx : v.keptField shape declared field = some (field, x)) :
    (v.norm shape (.record name)).get? field = some x := by
  cases v with
  | record entries =>
    rw [norm_record hshape]
    exact lookup_kept hfield hx
  -- no other value has a field
  | _ => cases hx

theorem get?_normFields (hdistinct : (declared.map (·.1)).Nodup)
    (hfield : field ∈ declared.map (·.1))
    (hx : v.keptField shape declared field = some (field, x)) :
    (normFields shape declared v.entries).get? field = some x := by
  rw [normFields_eq hdistinct]
  exact lookup_kept hfield ((keptField_entries v field).trans hx)

end Value

/-! ## Linked programs -/

namespace Machine

variable {m : Machine} {shape : String → Option Shape} {first : String → CellSize}
  {records : String → Prop} {name : String} {declared : Shape} {l : Layout} {v kept : Value}
  {bits : List Bool} {rigid : FieldOp → Prop} {c : Cell}

/-- Behind the bits that a layout leaves to the caller, its fields are written where it says. -/
theorem Linked.locates (linked : Linked m.programs shape first records)
    (laid : Laid first declared l)
    (hmentioned : ∀ d ∈ declared, ∀ other ∈ d.2.mentioned, records other)
    (hwriter : m.programs.lookup false name = .ok l.serializer) (hbits : bits.length = l.flagBits)
    (hrigid : ∀ pl ∈ l.placements, rigid pl.op → ∀ depth,
      Run.Takes (loadOp (loadRecord m.programs m.limits depth) pl.op) pl.size)
    (hkept : ∀ field ∈ declared.map (·.1), ∀ x,
      v.keptField shape declared field = some (field, x) → kept.get? field = some x)
    (hc : m.storeAfter bits name v = .ok c) : Locates m.programs m.limits rigid l kept c := by
  obtain ⟨depth, builders, n, hdepth, rfl, hstore⟩ := exists_storeAll hwriter hc
  have hplaced : ∀ pl ∈ l.placements, StoresPlacement shape False
      (storeProgram m.programs m.limits depth) (loadRecord m.programs m.limits depth) declared pl :=
    linked.storesPlacement nofun laid nofun hmentioned depth
  obtain ⟨-, header, e, hhead, hheader, hcarries⟩ :=
    (laid.carries hplaced (b := { bits }) hbits.le rfl m.limits.steps (le_refl _)).ok_of_run hstore
  have hfront : (({ bits } : Builder) ++ header).used = ⟨l.reserved, 0⟩ := by
    rw [Builder.used_append, hheader]
    simp only [Builder.used, hbits, List.length_nil, Nat.add_sub_cancel' l.flagBits_le]
  rw [hhead]
  refine locates_of_carries hcarries (by omega) (hfront ▸ laid.cells)
    (fun pl hpl hr => hrigid pl hpl hr depth) fun pl hpl => hkept pl.field ?_
  rw [← laid.names]
  exact List.mem_map_of_mem hpl

end Machine

/-! ## Analysed stores -/

namespace Analysis

variable {s : TypeStore} {a : Analysis}

/-- The operation of a field is rigid in the layouts of the store. -/
def Rigid (a : Analysis) (op : FieldOp) : Prop := op.Rigid fun name => a.layouts.get? (.full name)

/-- The layout is the one of a record that can be in a field. -/
def InField (a : Analysis) (name : String) (l : Layout) : Prop :=
  a.layouts.Holds name l ∧ a.store.isFieldType name = true

/-- Fields of a record type are placed with layouts of records that can be in a field. -/
theorem Of.placed (h : a.Of s) {t : RecordType} (ht : t ∈ a.store.types) {id : LayoutId}
    {header : Option UInt32} {fields : List Field} (hfields : fields ⊆ t.allFields) {l : Layout}
    (hfilled : a.layouts.Filled id t header fields l) :
    ∀ pl ∈ l.placements, ∃ current type, Costs a.InField current type pl.op pl.size := by
  intro pl hpl
  obtain ⟨f, hf, hplaced⟩ := exists_field_of_placed hfilled.placed hpl
  obtain ⟨current, hcost⟩ := hplaced.costs
  exact ⟨current, f.type, hcost.of_mentioned fun name hname l hl =>
    ⟨hl, h.mentioned t ht f (hfields hf) name hname⟩⟩

/-- Only a contract leaves a bit to the caller. -/
theorem Of.flagBits_eq (h : a.Of s) {name : String} {t : RecordType} (ht : t ∈ a.store.types)
    {fields : List Field} {l : Layout}
    (hfilled : a.layouts.Filled (.full name) t (if t.isMessage then t.headerValue else none) fields
      l) : l.flagBits = if t.isContract then 1 else 0 := by
  have hpresent := h.headers.present t ht
  revert hpresent
  rw [Layout.flagBits, hfilled.reserved_eq, hfilled.header_eq]
  unfold RecordType.isMessage RecordType.isContract
  cases t.kind with
  | message =>
    intro hpresent
    obtain ⟨header, hheader⟩ := hpresent rfl
    simp [hheader]
  | _ => simp [reservedBits]

section
variable (h : a.Of s) (hplain : s.PlainNames) (hdistinct : s.DistinctFields) (link : String)

include h hplain hdistinct

/-- What a field can contain in place has its parser, and reserves bits only for a header. -/
theorem Of.inlined {name : String} {l : Layout} (hl : a.InField name l) :
    Machine.Inlined (a.registry link).programs a.InField name l := by
  obtain ⟨hl, hfieldType⟩ := hl
  obtain ⟨t, l', ht, rfl, hlayout, -, hl', hfilled⟩ :=
    h.exists_layout (h.laidOut_of_isFieldType hfieldType)
  obtain rfl : l = l' := Option.some.inj (hl.symm.trans hl')
  have code := h.code hplain hdistinct link ht hlayout hl hfilled
  obtain ⟨c, rest, hcells, hc, -⟩ := code.cells
  refine
    { parser := code.parser .withHeader nofun
      omitted := code.omitted
      reserved := ?_
      fits := ⟨c, rest, hcells, hc⟩
      placed := h.placed ht (List.subset_append_left _ _) hfilled }
  have hkind : t.kind.isFieldType = true := by
    unfold TypeStore.isFieldType at hfieldType
    rwa [TypeStore.get?_of_mem ht] at hfieldType
  have hcontract : t.isContract = false := by
    revert hkind
    unfold RecordType.isContract
    cases t.kind <;> decide
  have hflag := h.flagBits_eq ht hfilled
  rw [hcontract, if_neg Bool.false_ne_true, Layout.flagBits] at hflag
  cases hheader : l.header with
  | none => simpa [hheader] using hflag
  | some header => exact code.header header hheader

/-- A rigid field of a record type takes exactly the size that it is placed with. -/
theorem Of.takes {t : RecordType} (ht : t ∈ a.store.types) {id : LayoutId} {header : Option UInt32}
    {fields : List Field} (hfields : fields ⊆ t.allFields) {l : Layout}
    (hfilled : a.layouts.Filled id t header fields l) (limits : Limits) :
    ∀ pl ∈ l.placements, a.Rigid pl.op → ∀ depth,
      Run.Takes (Machine.loadOp (Machine.loadRecord (a.registry link).programs limits depth) pl.op)
        pl.size := by
  intro pl hpl hr depth
  obtain ⟨current, type, hcost⟩ := h.placed ht hfields hfilled pl hpl
  exact Machine.takes_loadOp
    (fun name l hl => ⟨hl.1, h.inlined hplain hdistinct link hl⟩) hr hcost depth

end

end Analysis

/-! ## Compiled stores -/

/-- The parameters of each contract have names of their own. -/
def TypeStore.DistinctParams (s : TypeStore) : Prop :=
  ∀ t ∈ s.types, ∀ params, t.init = some params → (params.map (·.name)).Nodup

namespace Artifact

variable {s : TypeStore} {o : CompileOptions} {tools : Toolchain} {art : Artifact}

/--
Structs and messages in cells of their own, and contracts and parameters of contracts in the data of
the contract, have their fields where their layouts say, with values kept as `leaf` says.
-/
structure Located (art : Artifact) (s : TypeStore) (a : Analysis)
    (leaf : FieldType → Value → Value) : Prop where
  record : ∀ name t, s.get? name = some t → t.kind.hasLayout = true → t.isContract = false →
    ∃ l, a.layouts.get? (.full name) = some l
      ∧ ∀ limits v c, (art.machine limits).serialize name v = .ok c →
        Machine.Locates art.programs limits a.Rigid l (v.rebuild leaf s.shape (.record name)) c
  state : ∀ name t, s.get? name = some t → t.isContract = true →
    ∃ l, a.layouts.get? (.full name) = some l
      ∧ ∀ limits v c, (art.machine limits).contractData name v = .ok c →
        Machine.Locates art.programs limits a.Rigid l (v.rebuild leaf s.shape (.record name)) c
  params : ∀ name t params, s.get? name = some t → t.isContract = true → t.init = some params →
    ∃ l, a.layouts.get? (.init name) = some l
      ∧ ∀ limits v c, (art.machine limits).initData name v = .ok c →
        Machine.Locates art.programs limits a.Rigid l
          (Value.rebuildFields leaf s.shape (Field.shape params) v.entries) c

/-- A record behind the bits that its layout leaves to the caller, one for a contract. -/
theorem exists_locates (hart : s.compile o tools = .ok art) (hplain : s.PlainNames)
    (hdistinct : s.DistinctFields) {a : Analysis} (ha : s.analyze tools.evaluator = .ok a)
    {name : String} {t : RecordType} (ht : s.get? name = some t) (hkind : t.kind.hasLayout = true) :
    ∃ l, a.layouts.get? (.full name) = some l
      ∧ ∀ bits, bits.length = (if t.isContract then 1 else 0) → ∀ limits v c,
        (art.machine limits).storeAfter bits (ProcName.store name) v = .ok c →
          Machine.Locates art.programs limits a.Rigid l (v.norm s.shape (.record name)) c := by
  obtain ⟨a', link, ha', hof, hprograms, linked⟩ := exists_analysis hart hplain hdistinct
  obtain rfl : a = a' := Except.ok.inj (ha.symm.trans ha')
  have hname : s.LaidOut name := ⟨t, ht, hkind⟩
  obtain ⟨u, l, hu, rfl, hlayout, hshape, hl, hfilled⟩ := hof.exists_layout hname
  have hcontract : u.isContract = t.isContract := by
    simp only [RecordType.isContract, hof.kind_eq ht hu]
  have code := hof.code hplain hdistinct link hu hlayout hl hfilled
  rw [← hprograms] at code
  refine ⟨l, hl, fun bits hbits limits v c hc => ?_⟩
  have hflag : bits.length = l.flagBits := by
    rw [hof.flagBits_eq hu hfilled, hcontract, hbits]
  refine Machine.Linked.locates (m := art.machine limits) linked code.toLaid
    (linked.mentioned _ _ hname hshape) code.serializer hflag ?_
    (fun field hfield x => Value.get?_norm hshape hfield) hc
  have htakes := hof.takes hplain hdistinct link hu (List.subset_append_left _ _) hfilled limits
  rwa [← hprograms] at htakes

/-- Parameters of a contract, behind the bit that says that there is no state yet. -/
theorem exists_locates_params (hart : s.compile o tools = .ok art) (hplain : s.PlainNames)
    (hdistinct : s.DistinctFields) {a : Analysis} (ha : s.analyze tools.evaluator = .ok a)
    {name : String} {t : RecordType} (ht : s.get? name = some t) (hcontract : t.isContract = true)
    {params : List Field} (hinit : t.init = some params) (hnames : (params.map (·.name)).Nodup) :
    ∃ l, a.layouts.get? (.init name) = some l
      ∧ ∀ limits v c, (art.machine limits).initData name v = .ok c →
        Machine.Locates art.programs limits a.Rigid l
          (Value.normFields s.shape (Field.shape params) v.entries) c := by
  obtain ⟨a', link, ha', hof, hprograms, linked⟩ := exists_analysis hart hplain hdistinct
  obtain rfl : a = a' := Except.ok.inj (ha.symm.trans ha')
  obtain ⟨u, fields, l, hu, -, -, hfields, hshape, hl, hfilled⟩ := hof.exists_params ht hcontract hinit
  obtain ⟨laid, hheader, hreserved, hwriter, -, hmentioned⟩ :=
    hof.laid_params hplain link ht hcontract hinit hnames hl
  rw [← hprograms] at hwriter
  refine ⟨l, hl, fun limits v c hc => ?_⟩
  have hflag : [false].length = l.flagBits := by
    rw [Layout.flagBits, hheader, hreserved]
    rfl
  refine Machine.Linked.locates (m := art.machine limits) linked laid hmentioned hwriter hflag ?_
    (fun field hfield x => Value.get?_normFields laid.distinct hfield) hc
  have hsub : fields ⊆ u.allFields := by
    rw [RecordType.allFields, hfields]
    exact List.subset_append_right _ _
  have htakes := hof.takes hplain hdistinct link hu hsub hfilled limits
  rwa [← hprograms] at htakes

/--
The layouts of a compiled store tell where the fields of written records are: behind rigid fields
alone, each field is at the offsets of its placement, and reads as what writing keeps of its value.
-/
theorem placements_located (hart : s.compile o tools = .ok art) (hplain : s.PlainNames)
    (hdistinct : s.DistinctFields) (hparams : s.DistinctParams) :
    ∃ a, s.analyze tools.evaluator = .ok a ∧ art.Located s a Value.cutBits := by
  obtain ⟨a, link, ha, -⟩ := TypeStore.compile_ok hart
  refine ⟨a, ha, ?_, ?_, ?_⟩
  · intro name t ht hkind hcontract
    obtain ⟨l, hl, hlocates⟩ := exists_locates hart hplain hdistinct ha ht hkind
    exact ⟨l, hl, hlocates [] (by rw [hcontract]; rfl)⟩
  · intro name t ht hcontract
    obtain ⟨l, hl, hlocates⟩ := exists_locates hart hplain hdistinct ha ht
      (RecordType.hasLayout_of_contract hcontract)
    exact ⟨l, hl, hlocates [true] (by rw [hcontract]; rfl)⟩
  · intro name t params ht hcontract hinit
    exact exists_locates_params hart hplain hdistinct ha ht hcontract hinit
      (hparams t (TypeStore.mem_of_get? ht) params hinit)

/-- In the parameters of a bank, a rigid record stands behind an integer of a fixed size. -/
theorem exists_tag_sampleBank {art : Artifact} {a : Analysis} {leaf : FieldType → Value → Value}
    (ha : sampleBank.analyze Expr.evaluate = .ok a) (hlocated : art.Located sampleBank a leaf)
    {d : Cell} (hd : (art.machine {}).initData "Bank" (.record sampleParams) = .ok d) :
    ∃ s x rest, d.toSlice.Leaves ⟨33, 0⟩ s
      ∧ (Value.rebuildFields leaf sampleBank.shape
          [("seed", .int (.uint 32)), ("tag", .record "Tag")] sampleParams).get? "tag" = some x
      ∧ (art.machine {}).loadField (.record "Tag" false) s = .ok (x, rest)
      ∧ d.toSlice.Leaves ⟨46, 0⟩ rest := by
  have hlayouts : (sampleBank.analyze Expr.evaluate).toOption.all (fun a =>
      (a.layouts.get? (.init "Bank")).all (fun l => l.cells =
        [⟨[⟨"seed", .int (.uint 32), 1, 32, 0, 0⟩, ⟨"tag", .record "Tag" false, 33, 13, 0, 0⟩],
          ⟨46, 0⟩⟩])
      && (a.layouts.get? (.full "Tag")).any fun l =>
        l.placements.all (·.op.fixedSize?.isSome)) = true := by decide +kernel
  rw [ha] at hlayouts
  obtain ⟨hparams, htag⟩ := Bool.and_eq_true_iff.1 hlayouts
  obtain ⟨t, ht, hcontract, hinit⟩ : ∃ t, sampleBank.get? "Bank" = some t ∧ t.isContract = true
      ∧ t.init = some [{ name := "seed", type := .int (.uint 32) },
        { name := "tag", type := .record "Tag" }] := ⟨_, rfl, rfl, rfl⟩
  obtain ⟨l, hl, hlocates⟩ := hlocated.params "Bank" t _ ht hcontract hinit
  rw [hl] at hparams
  have hcells := of_decide_eq_true hparams
  have hrigid : a.Rigid (.record "Tag" false) := by
    obtain ⟨tag, htag, hfixed⟩ := (Option.any_eq_true _ _).1 htag
    refine .inline htag fun pl hpl => ?_
    obtain ⟨size, hsize⟩ := Option.isSome_iff_exists.1 (List.all_eq_true.1 hfixed pl hpl)
    exact .fixed hsize
  have hseed : ∀ other ∈ [(⟨"seed", .int (.uint 32), 1, 32, 0, 0⟩ : Placement)],
      a.Rigid other.op := by
    intro other hother
    obtain rfl := List.mem_singleton.1 hother
    exact .fixed rfl
  obtain ⟨found, s, x, rest, hfound, hstart, hx, hreads, hend⟩ :=
    hlocates {} _ d hd 0 _ [_] _ [] (by rw [hcells]; rfl) rfl hseed
  obtain rfl : d = found := Option.some.inj hfound
  refine ⟨s, x, rest, hstart, hx, ?_, hend hrigid⟩
  exact (hreads {}).resolve_right fun hlimit => hlimit.1 ⟨le_refl _, le_refl _⟩

theorem placements_located_sample : ∃ art d s rest,
    sampleBank.compile { entry := "Bank" } = .ok art
    ∧ (art.machine {}).initData "Bank" (.record sampleParams) = .ok d
    ∧ d.toSlice.Leaves ⟨33, 0⟩ s
    ∧ (art.machine {}).loadField (.record "Tag" false) s =
      .ok (.record [("mark", .bits [0xab, 0xc0]), ("open", .bool false)], rest)
    ∧ d.toSlice.Leaves ⟨46, 0⟩ rest := by
  obtain ⟨art, hart⟩ := exists_sampleBank
  obtain ⟨-, d, -, hd⟩ := exists_data_sampleBank hart
  obtain ⟨a, ha, hlocated⟩ := placements_located hart plainNames_sampleBank
    distinctFields_sampleBank plainParams_sampleBank.distinct
  obtain ⟨s, x, rest, hstart, hx, hread, hend⟩ := exists_tag_sampleBank ha hlocated hd
  cases hx
  exact ⟨art, d, s, rest, hart, hd, hstart, hread, hend⟩

/-- Not all of a value is at its place: bits that the type does not have are lost. -/
theorem placements_located_cut : ¬∀ (s : TypeStore) (o : CompileOptions) (tools : Toolchain)
    (art : Artifact), s.compile o tools = .ok art → s.PlainNames → s.DistinctFields →
    s.NamedFormats → s.PlainParams →
    ∃ a, s.analyze tools.evaluator = .ok a ∧ art.Located s a fun _ v => v := by
  intro h
  have hrun : (sampleBank.compile { entry := "Bank" }).toOption.any (fun art =>
      ((art.machine {}).initData "Bank" (.record sampleParams)).toOption.any fun d =>
        ((art.machine {}).loadField (.record "Tag" false)
          (d.toSlice.advance ⟨33, 0⟩)).toOption.any fun r =>
            r.1.bytesAt? ["mark"] = some [0xab, 0xc0]) = true := by decide +kernel
  obtain ⟨art, hart⟩ := exists_sampleBank
  obtain ⟨-, d, -, hd⟩ := exists_data_sampleBank hart
  obtain ⟨a, ha, hlocated⟩ := h sampleBank _ {} art hart plainNames_sampleBank
    distinctFields_sampleBank namedFormats_sampleBank plainParams_sampleBank
  obtain ⟨s, x, rest, ⟨-, -, rfl⟩, hx, hread, -⟩ := exists_tag_sampleBank ha hlocated hd
  rw [hart] at hrun
  simp only [Except.toOption, Option.any_some, hd, hread] at hrun
  cases hx
  cases hrun

end Artifact
end CellPack
