import Mathlib
import CellPack.Layout.Cache
/-!
# Placing fields in cells

`Places` relates a list of fields to the cells that the placing of them fills. Each cell is within
its capacity and has its placements one behind the other (`Places.fits`), and the placements of all
cells are the fields in order, each with an operation for its type (`Places.fields_placed`).
-/

namespace CellPack

/-! ## Sizes -/

namespace CellSize

theorem fitsCell_iff {s : CellSize} :
    s.fitsCell = true ↔ s.bits ≤ maxCellBits ∧ s.refs ≤ usableCellRefs := by
  simp [fitsCell]

theorem add_eq (a b : CellSize) :
    a + b = ⟨min (a.bits + b.bits) 65535, min (a.refs + b.refs) 255⟩ := rfl

/-- A sum within a cell is not at the end of its range. -/
theorem add_of_le {a b : CellSize} (hb : a.bits + b.bits ≤ maxCellBits)
    (hr : a.refs + b.refs ≤ usableCellRefs) : a + b = ⟨a.bits + b.bits, a.refs + b.refs⟩ := by
  simp only [maxCellBits, usableCellRefs, maxCellRefs] at hb hr
  rw [add_eq, min_eq_left (by omega), min_eq_left (by omega)]

theorem add_of_fitsCell {a b : CellSize} (h : (a + b).fitsCell = true) :
    a + b = ⟨a.bits + b.bits, a.refs + b.refs⟩ := by
  have := fitsCell_iff.1 h
  simp only [add_eq, maxCellBits, usableCellRefs, maxCellRefs] at this
  rw [add_eq, min_eq_left (by omega), min_eq_left (by omega)]

theorem fitsCell_right {a b : CellSize} (h : (a + b).fitsCell = true) : b.fitsCell = true := by
  have hsum := fitsCell_iff.1 h
  rw [add_of_fitsCell h] at hsum
  exact fitsCell_iff.2
    ⟨(Nat.le_add_left _ _).trans hsum.1, (Nat.le_add_left _ _).trans hsum.2⟩

end CellSize

/-- The check of a size asks for nothing but room in an empty cell. -/
theorem checkPayload_eq_ok {typeName field : String} {payload : CellSize} :
    checkPayload typeName field payload = .ok () ↔ payload.fitsCell = true := by
  unfold checkPayload
  rw [CellSize.fitsCell_iff]
  split
  · exact ⟨nofun, fun h => by omega⟩
  · split
    · exact ⟨nofun, fun h => by omega⟩
    · exact ⟨fun _ => ⟨by omega, by omega⟩, fun _ => rfl⟩

/-! ## Cells -/

/-- The placements of all cells in order. -/
def Layout.placements (l : Layout) : List Placement := l.cells.flatMap (·.placements)

/-- The placements follow each other without gaps from one place in a cell to another. -/
def Contiguous : CellSize → List Placement → CellSize → Prop
  | start, [], stop => start = stop
  | start, p :: rest, stop =>
    p.bitOffset = start.bits ∧ p.refOffset = start.refs
      ∧ Contiguous ⟨start.bits + p.bits, start.refs + p.refs⟩ rest stop

theorem Contiguous.concat {start stop : CellSize} {ps : List Placement} {p : Placement}
    (h : Contiguous start ps stop) (hb : p.bitOffset = stop.bits) (hr : p.refOffset = stop.refs) :
    Contiguous start (ps ++ [p]) ⟨stop.bits + p.bits, stop.refs + p.refs⟩ := by
  induction ps generalizing start with
  | nil =>
    obtain rfl : start = stop := h
    exact ⟨hb, hr, rfl⟩
  | cons q ps ih => exact ⟨h.1, h.2.1, ih h.2.2⟩

namespace LayoutCell

/-- The cell is within its capacity, and its placements follow each other up to its end. -/
structure Fits (start : CellSize) (c : LayoutCell) : Prop where
  used_fits : c.used.fitsCell = true
  contiguous : Contiguous start c.placements c.used

theorem fits_reserving {n : Nat} (h : n ≤ maxCellBits) : (reserving n).Fits ⟨n, 0⟩ :=
  ⟨CellSize.fitsCell_iff.2 ⟨h, Nat.zero_le _⟩, rfl⟩

theorem Fits.place {start size : CellSize} {c : LayoutCell} (h : c.Fits start)
    (hfit : c.canFit size = true) (field : String) (op : FieldOp) :
    (c.place field op size).Fits start := by
  refine ⟨hfit, ?_⟩
  change Contiguous start (c.placements ++ _) (c.used + size)
  rw [CellSize.add_of_fitsCell hfit]
  exact h.contiguous.concat rfl rfl

theorem canFit_reserving {size : CellSize} (h : size.fitsCell = true) :
    (reserving 0).canFit size = true := by
  obtain ⟨hb, hr⟩ := CellSize.fitsCell_iff.1 h
  refine CellSize.fitsCell_iff.2 ⟨?_, ?_⟩
  · exact (min_le_left _ _).trans (by simpa [reserving] using hb)
  · exact (min_le_left _ _).trans (by simpa [reserving] using hr)

end LayoutCell

/-! ## Fields -/

/-- What a field of a type can cost in a cell, where `nested` gives the layouts of records. -/
inductive Costs (nested : String → Layout → Prop) (current : LayoutCell) (type : FieldType) :
    FieldOp → CellSize → Prop where
  | fixed {op : FieldOp} {size payload : CellSize} (h : type.lower = .fixed op size payload)
    (fits : payload.fitsCell = true) : Costs nested current type op size
  | nested {name : String} {l : Layout} (h : type.lower = .nested name) (hl : nested name l) :
    Costs nested current type (nestedOp current name l).1 (nestedOp current name l).2

/-- A placement is the place of a field. -/
structure PlacedAs (nested : String → Layout → Prop) (f : Field) (p : Placement) : Prop where
  field : p.field = f.name
  costs : ∃ current, Costs nested current f.type p.op p.size

/-- The cells that fields fill: the given one, then fresh ones. -/
inductive Places (nested : String → Layout → Prop) :
    LayoutCell → List Field → List LayoutCell → Prop where
  | done (current : LayoutCell) : Places nested current [] [current]
  | here {current : LayoutCell} {f : Field} {rest : List Field} {cells : List LayoutCell}
    {op : FieldOp} {size : CellSize} (cost : Costs nested current f.type op size)
    (fits : current.canFit size = true)
    (h : Places nested (current.place f.name op size) rest cells) :
    Places nested current (f :: rest) cells
  | fresh {current : LayoutCell} {f : Field} {rest : List Field} {cells : List LayoutCell}
    {op : FieldOp} {size : CellSize} (cost : Costs nested current f.type op size)
    (full : current.canFit size = false) (fits : size.fitsCell = true)
    (h : Places nested ((LayoutCell.reserving 0).place f.name op size) rest cells) :
    Places nested current (f :: rest) (current :: cells)

/-- An optional value is an operation of its own, or a map. -/
theorem Lowered.optional_eq (lowered : Lowered) : ∃ op size payload,
    lowered.optional = .fixed op size payload
      ∧ (op = .dict ∨ ∃ inner boxed, op = .optional inner boxed) := by
  unfold optional
  split
  · exact ⟨_, _, _, rfl, .inl rfl⟩
  · exact ⟨_, _, _, rfl, .inr ⟨_, _, rfl⟩⟩
  · dsimp only
    split
    · exact ⟨_, _, _, rfl, .inr ⟨_, _, rfl⟩⟩
    · exact ⟨_, _, _, rfl, .inr ⟨_, _, rfl⟩⟩
  · exact ⟨_, _, _, rfl, .inr ⟨_, _, rfl⟩⟩

theorem FieldType.eq_record_of_lower {type : FieldType} {name : String}
    (h : type.lower = .nested name) : type = .record name := by
  cases type with
  | record other =>
    cases h
    rfl
  | optional inner =>
    obtain ⟨op, size, payload, heq, -⟩ := inner.lower.optional_eq
    rw [lower, heq] at h
    cases h
  | _ => cases h

/-- Only the layouts of records that the type mentions matter. -/
theorem Costs.of_mentioned {nested nested' : String → Layout → Prop} {current : LayoutCell}
    {type : FieldType} {op : FieldOp} {size : CellSize} (h : Costs nested current type op size)
    (hn : ∀ name ∈ type.mentioned, ∀ l, nested name l → nested' name l) :
    Costs nested' current type op size := by
  cases h with
  | fixed h fits => exact .fixed h fits
  | @nested name l h hl =>
    refine .nested h (hn name ?_ l hl)
    rw [FieldType.eq_record_of_lower h]
    exact List.mem_singleton_self name

theorem Costs.mono {nested nested' : String → Layout → Prop} {current : LayoutCell}
    {type : FieldType} {op : FieldOp} {size : CellSize}
    (hn : ∀ name l, nested name l → nested' name l) (h : Costs nested current type op size) :
    Costs nested' current type op size := h.of_mentioned fun name _ => hn name

namespace Places

variable {nested nested' : String → Layout → Prop} {current : LayoutCell} {fields : List Field}
  {cells : List LayoutCell}

theorem mono (hn : ∀ name l, nested name l → nested' name l)
    (h : Places nested current fields cells) : Places nested' current fields cells := by
  induction h with
  | done current => exact .done current
  | here cost fits _ ih => exact .here (cost.mono hn) fits ih
  | fresh cost full fits _ ih => exact .fresh (cost.mono hn) full fits ih

/-- Each cell keeps its capacity and has its placements one behind the other. -/
theorem fits {start : CellSize} (h : Places nested current fields cells)
    (hc : current.Fits start) :
    ∃ first rest, cells = first :: rest ∧ first.Fits start ∧ ∀ c ∈ rest, c.Fits .zero := by
  induction h generalizing start with
  | done current => exact ⟨current, [], rfl, hc, by simp⟩
  | here _ fits _ ih => exact ih (hc.place fits _ _)
  | @fresh current _ _ cells _ _ _ _ fits _ ih =>
    -- the full cell stays as it is, and the fresh one is the first of the rest
    have hempty := LayoutCell.fits_reserving (Nat.zero_le maxCellBits)
    obtain ⟨first, rest, hcells, hfirst, hrest⟩ :=
      ih (hempty.place (LayoutCell.canFit_reserving fits) _ _)
    refine ⟨current, cells, rfl, hc, fun c hmem => ?_⟩
    rw [hcells] at hmem
    rcases List.mem_cons.1 hmem with rfl | hmem
    · exact hfirst
    · exact hrest c hmem

/-- The placements of all cells are those that were there, then the fields in order. -/
theorem fields_placed (h : Places nested current fields cells) :
    ∃ placed, cells.flatMap (·.placements) = current.placements ++ placed
      ∧ List.Forall₂ (PlacedAs nested) fields placed := by
  induction h with
  | done current => exact ⟨[], by simp, .nil⟩
  | @here current f rest cells op size cost fits _ ih =>
    obtain ⟨placed, hcells, hplaced⟩ := ih
    rw [LayoutCell.place, List.append_assoc] at hcells
    have hp : PlacedAs nested f ⟨f.name, op, current.used.bits, size.bits, current.used.refs, size.refs⟩ :=
      ⟨rfl, current, cost⟩
    exact ⟨_, hcells, .cons hp hplaced⟩
  | @fresh current f rest cells op size cost full fits _ ih =>
    obtain ⟨placed, hcells, hplaced⟩ := ih
    have hp : PlacedAs nested f ⟨f.name, op, 0, size.bits, 0, size.refs⟩ :=
      ⟨rfl, current, cost⟩
    refine ⟨_, ?_, .cons hp hplaced⟩
    rw [List.flatMap_cons, hcells]
    rfl

end Places

/-- The names of the placements are the names of the fields, in order. -/
theorem names_of_placed {nested : String → Layout → Prop} {fields : List Field}
    {ps : List Placement} (h : List.Forall₂ (PlacedAs nested) fields ps) :
    ps.map (·.field) = fields.map (·.name) := by
  induction h with
  | nil => rfl
  | cons hp _ ih => rw [List.map_cons, List.map_cons, ih, hp.field]

theorem exists_field_of_placed {nested : String → Layout → Prop} {fields : List Field}
    {ps : List Placement} (h : List.Forall₂ (PlacedAs nested) fields ps) {p : Placement}
    (hp : p ∈ ps) : ∃ f ∈ fields, PlacedAs nested f p := by
  induction h with
  | nil => cases hp
  | cons hf _ ih =>
    rcases List.mem_cons.1 hp with rfl | hp
    · exact ⟨_, List.mem_cons_self, hf⟩
    · obtain ⟨f, hmem, hf⟩ := ih hp
      exact ⟨f, List.mem_cons_of_mem _ hmem, hf⟩

/-! ## Leading fields -/

theorem Contiguous.le {start stop : CellSize} {ps : List Placement}
    (h : Contiguous start ps stop) : start.bits ≤ stop.bits ∧ start.refs ≤ stop.refs := by
  induction ps generalizing start with
  | nil =>
    obtain rfl : start = stop := h
    exact ⟨le_refl _, le_refl _⟩
  | cons p ps ih =>
    obtain ⟨hb, hr⟩ := ih h.2.2
    exact ⟨(Nat.le_add_right _ _).trans hb, (Nat.le_add_right _ _).trans hr⟩

/-- Placements without references end where they start. -/
theorem Contiguous.refs_eq {start stop : CellSize} {ps : List Placement}
    (h : Contiguous start ps stop) (hrefs : ∀ p ∈ ps, p.refs = 0) : stop.refs = start.refs := by
  induction ps generalizing start with
  | nil =>
    obtain rfl : start = stop := h
    rfl
  | cons p ps ih =>
    obtain ⟨hp, hps⟩ := List.forall_mem_cons.1 hrefs
    rw [ih h.2.2 hps, hp, Nat.add_zero]

theorem Contiguous.split {start stop : CellSize} {ps qs : List Placement}
    (h : Contiguous start (ps ++ qs) stop) :
    ∃ border, Contiguous start ps border ∧ Contiguous border qs stop := by
  induction ps generalizing start with
  | nil => exact ⟨start, rfl, h⟩
  | cons p ps ih =>
    obtain ⟨border, hps, hqs⟩ := ih h.2.2
    exact ⟨border, ⟨h.1, h.2.1, hps⟩, hqs⟩

namespace LayoutCell

/-- Fields that follow each other go to the same places again. -/
theorem foldl_place {start stop : CellSize} {ps : List Placement} (c : LayoutCell)
    (h : Contiguous c.used ps stop) (hstop : stop.fitsCell = true) (hc : c.Fits start) :
    ps.foldl (fun c p => c.place p.field p.op p.size) c = ⟨c.placements ++ ps, stop⟩
      ∧ (⟨c.placements ++ ps, stop⟩ : LayoutCell).Fits start := by
  induction ps generalizing c with
  | nil =>
    obtain rfl : c.used = stop := h
    rw [List.append_nil]
    exact ⟨rfl, hc⟩
  | cons p ps ih =>
    obtain ⟨hb, hr, hrest⟩ := h
    have hle := hrest.le
    have hlim := CellSize.fitsCell_iff.1 hstop
    have hsum : c.used + p.size = ⟨c.used.bits + p.bits, c.used.refs + p.refs⟩ :=
      CellSize.add_of_le (hle.1.trans hlim.1) (hle.2.trans hlim.2)
    have hfit : c.canFit p.size = true := by
      rw [canFit, hsum]
      exact CellSize.fitsCell_iff.2 ⟨hle.1.trans hlim.1, hle.2.trans hlim.2⟩
    have hplace : c.place p.field p.op p.size =
        ⟨c.placements ++ [p], ⟨c.used.bits + p.bits, c.used.refs + p.refs⟩⟩ := by
      rw [place, hsum, ← hb, ← hr]
      rfl
    rw [List.foldl_cons, List.append_cons]
    have hnext := hc.place hfit p.field p.op
    rw [hplace] at hnext ⊢
    exact ih _ hrest hnext

end LayoutCell

/-! ## Records in place -/

/-- A record goes in place, with the size of its first cell, or behind a reference. -/
theorem nestedOp_eq (current : LayoutCell) (name : String) (l : Layout) :
    ∃ boxed, nestedOp current name l =
        (.record name boxed, if boxed then ⟨0, 1⟩ else l.firstCellSize)
      ∧ (l.boxedWhenNested = true → boxed = true) := by
  unfold nestedOp
  by_cases h : l.boxedWhenNested ||
      (!current.canFit l.firstCellSize && current.canFit ⟨0, 1⟩)
  · exact ⟨true, if_pos h, fun _ => rfl⟩
  · refine ⟨false, if_neg h, fun hbox => ?_⟩
    rw [hbox] at h
    exact absurd rfl h

/-- A layout that can go in place is one cell within the limit for that. -/
theorem Layout.single_of_not_boxed {l : Layout} (hcells : l.cells ≠ [])
    (h : l.boxedWhenNested = false) :
    ∃ c, l.cells = [c] ∧ c.used.bits ≤ maxInlineBits ∧ l.firstCellSize = c.used := by
  unfold boxedWhenNested at h
  unfold firstCellSize
  match hl : l.cells, hcells with
  | [c], _ =>
    refine ⟨c, rfl, ?_, rfl⟩
    simpa [hl] using h
  | c :: d :: rest, _ => simp [hl] at h

/-- Only a record itself has the operation of a record. -/
theorem FieldType.lower_ne_record (type : FieldType) (name : String) (boxed : Bool)
    (size payload : CellSize) : type.lower ≠ .fixed (.record name boxed) size payload := by
  intro h
  cases type with
  | optional inner =>
    obtain ⟨op, size', payload', heq, hop⟩ := inner.lower.optional_eq
    rw [lower, heq] at h
    cases h
    rcases hop with hop | ⟨_, _, hop⟩ <;> cases hop
  | _ => cases h

/-- The layout behind the placement of a record in place. -/
theorem Costs.inline {nested : String → Layout → Prop} {current : LayoutCell} {type : FieldType}
    {name : String} {size : CellSize} (h : Costs nested current type (.record name false) size)
    (hcells : ∀ l, nested name l → l.cells ≠ []) :
    ∃ l c, nested name l ∧ l.cells = [c] ∧ c.used.bits ≤ maxInlineBits ∧ size = c.used := by
  generalize hop : FieldOp.record name false = op at h
  cases h with
  -- no other type has the operation of a record
  | fixed h _ => exact absurd (hop ▸ h) (type.lower_ne_record name false _ _)
  | @nested target l h hl =>
    obtain ⟨boxed, heq, hbox⟩ := nestedOp_eq current target l
    rw [heq] at hop ⊢
    obtain ⟨rfl, rfl⟩ : name = target ∧ false = boxed := by simpa using hop
    have hnot : l.boxedWhenNested = false := by
      by_contra hb
      simpa using hbox (by simpa using hb)
    obtain ⟨c, hc, hbits, hsize⟩ := Layout.single_of_not_boxed (hcells l hl) hnot
    exact ⟨l, c, hl, hc, hbits, hsize⟩

end CellPack
