import Mathlib
import CellPack.Proofs.Layouts
/-!
# Least number of cells

A layout goes on to a new cell only with a placement that has no room in the cell before it
(`LayoutCell.Overflows`). So it is never behind any other way to put the same sizes into cells in the
same order, and none needs fewer cells (`LayoutCache.request_fewest`).
-/

namespace CellPack

/-! ## Packings -/

/-- Sizes one behind the other, from a place in a cell on, are within its capacity. -/
def FitsBehind (start : CellSize) (sizes : List CellSize) : Prop :=
  start.bits + (sizes.map (·.bits)).sum ≤ maxCellBits
    ∧ start.refs + (sizes.map (·.refs)).sum ≤ usableCellRefs

/-- The sizes in order go to one cell, from a place in it on, and to the cells behind it. -/
structure Packs (start : CellSize) (sizes first : List CellSize) (rest : List (List CellSize)) :
    Prop where
  inOrder : first ++ rest.flatten = sizes
  first : FitsBehind start first
  rest : ∀ part ∈ rest, FitsBehind .zero part

/-- Each part but the first starts with a size that does not fit behind the part before it. -/
def Forced : CellSize → List CellSize → List (List CellSize) → Prop
  | _, _, [] => True
  | start, part, next :: rest =>
    (∃ size ∈ next.head?, ¬FitsBehind start (part ++ [size])) ∧ Forced .zero next rest

theorem FitsBehind.sublist {start : CellSize} {sizes sizes' : List CellSize}
    (h : FitsBehind start sizes) (hsub : sizes'.Sublist sizes) : FitsBehind start sizes' := by
  obtain ⟨hb, hr⟩ := h
  have hbits := (hsub.map (·.bits)).sum_le_sum fun _ _ => Nat.zero_le _
  have hrefs := (hsub.map (·.refs)).sum_le_sum fun _ _ => Nat.zero_le _
  exact ⟨by omega, by omega⟩

/--
If a packing still has to place some sizes in front of those that the forced parts start with, its
first cell ends no later than the first part.
-/
theorem Forced.behind {start size : CellSize} {before part first tail rest : List CellSize}
    (hover : ¬FitsBehind start (part ++ [size])) (hfirst : FitsBehind start first)
    (h : first ++ rest = before ++ part ++ size :: tail) :
    ∃ left, rest = left ++ size :: tail := by
  rcases List.append_eq_append_iff.1 h with ⟨left, -, hrest⟩ | ⟨more, hmore, hrest⟩
  · exact ⟨left, hrest⟩
  · rcases more with _ | ⟨other, more⟩
    · exact ⟨[], hrest.symm⟩
    · -- the first cell would have the whole part and the size behind it
      obtain ⟨rfl, -⟩ := List.cons.inj hrest
      refine absurd (hfirst.sublist ?_) hover
      rw [hmore, List.append_assoc]
      refine (List.Sublist.append_left ?_ part).trans (List.sublist_append_right before _)
      exact List.singleton_sublist.2 List.mem_cons_self

/-- No packing of the same sizes has fewer cells, even if it had some more to place first. -/
theorem Forced.length_le {parts : List (List CellSize)} :
    ∀ {start : CellSize} {part before first : List CellSize} {rest : List (List CellSize)},
      Forced start part parts → first ++ rest.flatten = before ++ (part ++ parts.flatten) →
      FitsBehind start first → (∀ p ∈ rest, FitsBehind .zero p) → parts.length ≤ rest.length := by
  induction parts with
  | nil => exact fun _ _ _ _ => Nat.zero_le _
  | cons next parts ih =>
    rintro start part before first rest ⟨⟨size, hsize, hover⟩, hforced⟩ heq hfirst hrest
    obtain ⟨tail, rfl⟩ := List.head?_eq_some_iff.1 hsize
    rw [List.flatten_cons, List.cons_append, ← List.append_assoc] at heq
    obtain ⟨left, hleft⟩ := Forced.behind hover hfirst heq
    cases rest with
    | nil => simp at hleft
    | cons other rest =>
      obtain ⟨hother, hrest⟩ := List.forall_mem_cons.1 hrest
      exact Nat.succ_le_succ (ih hforced hleft hother hrest)

/-! ## Cells -/

/-- The second cell starts with a placement that has no room in the first one. -/
def LayoutCell.Overflows (c next : LayoutCell) : Prop :=
  ∃ p ∈ next.placements.head?, ¬(p.bits ≤ c.free.bits ∧ p.refs ≤ c.free.refs)

/-- The sizes of the placements in a cell. -/
def LayoutCell.sizes (c : LayoutCell) : List CellSize := c.placements.map (·.size)

theorem LayoutCell.canFit_of_le {c : LayoutCell} {size : CellSize} (hc : c.used.fitsCell = true)
    (h : size.bits ≤ c.free.bits ∧ size.refs ≤ c.free.refs) : c.canFit size = true := by
  obtain ⟨hb, hr⟩ := CellSize.fitsCell_iff.1 hc
  obtain ⟨hbits, hrefs⟩ := h
  simp only [free] at hbits hrefs
  have hsum : c.used + size = ⟨c.used.bits + size.bits, c.used.refs + size.refs⟩ :=
    CellSize.add_of_le (by omega) (by omega)
  rw [canFit, hsum]
  exact CellSize.fitsCell_iff.2 ⟨by dsimp only; omega, by dsimp only; omega⟩

/-- Placements without gaps end behind all that they take. -/
theorem Contiguous.stop_eq {start stop : CellSize} {ps : List Placement}
    (h : Contiguous start ps stop) :
    stop.bits = start.bits + ((ps.map (·.size)).map (·.bits)).sum
      ∧ stop.refs = start.refs + ((ps.map (·.size)).map (·.refs)).sum := by
  induction ps generalizing start with
  | nil =>
    obtain rfl : start = stop := h
    exact ⟨rfl, rfl⟩
  | cons p ps ih =>
    obtain ⟨hb, hr⟩ := ih h.2.2
    simp only [List.map_cons, List.sum_cons, Placement.size] at hb hr ⊢
    exact ⟨by omega, by omega⟩

theorem LayoutCell.Fits.fitsBehind {start : CellSize} {c : LayoutCell} (h : c.Fits start) :
    FitsBehind start c.sizes := by
  obtain ⟨hb, hr⟩ := CellSize.fitsCell_iff.1 h.used_fits
  obtain ⟨hbits, hrefs⟩ := h.contiguous.stop_eq
  exact ⟨hbits ▸ hb, hrefs ▸ hr⟩

theorem LayoutCell.Overflows.not_fitsBehind {start : CellSize} {c next : LayoutCell}
    (h : c.Overflows next) (hc : c.Fits start) :
    ∃ size ∈ next.sizes.head?, ¬FitsBehind start (c.sizes ++ [size]) := by
  obtain ⟨p, hp, hover⟩ := h
  refine ⟨p.size, ?_, fun ⟨hb, hr⟩ => hover ?_⟩
  · rw [sizes, List.head?_map, Option.mem_def.1 hp]
    rfl
  · obtain ⟨hbits, hrefs⟩ := hc.contiguous.stop_eq
    simp only [sizes, List.map_append, List.sum_append, List.map_singleton, List.sum_singleton,
      Placement.size] at hb hr
    simp only [free, Placement.size] at hbits hrefs ⊢
    exact ⟨by omega, by omega⟩

/-- Cells that overflow into each other are forced. -/
theorem forced_of_overflows {rest : List LayoutCell} :
    ∀ {start : CellSize} {first : LayoutCell}, (first :: rest).IsChain LayoutCell.Overflows →
      first.Fits start → (∀ c ∈ rest, c.Fits .zero) →
      Forced start first.sizes (rest.map (·.sizes)) := by
  induction rest with
  | nil => exact fun _ _ _ => trivial
  | cons next rest ih =>
    intro start first hchain hfirst hrest
    obtain ⟨hover, hchain⟩ := List.isChain_cons_cons.1 hchain
    obtain ⟨hnext, hrest⟩ := List.forall_mem_cons.1 hrest
    exact ⟨hover.not_fitsBehind hfirst, ih hchain hnext hrest⟩

/-- Fields go on to a new cell only if there is no room in the current one. -/
theorem Places.overflows {nested : String → Layout → Prop} {current : LayoutCell}
    {fields : List Field} {cells : List LayoutCell} {start : CellSize}
    (h : Places nested current fields cells) (hc : current.Fits start) :
    cells.IsChain LayoutCell.Overflows
      ∧ ∃ first rest, cells = first :: rest ∧ current.placements <+: first.placements := by
  induction h generalizing start with
  | done current =>
    exact ⟨List.isChain_singleton _, current, [], rfl, List.prefix_refl _⟩
  | here _ fits _ ih =>
    obtain ⟨hchain, first, rest, hcells, hprefix⟩ := ih (hc.place fits _ _)
    exact ⟨hchain, first, rest, hcells, (List.prefix_append _ _).trans hprefix⟩
  | @fresh current f _ cells op size _ full fits _ ih =>
    have hempty := LayoutCell.fits_reserving (Nat.zero_le maxCellBits)
    obtain ⟨hchain, first, rest, rfl, hprefix⟩ :=
      ih (hempty.place (LayoutCell.canFit_reserving fits) _ _)
    refine ⟨hchain.cons_cons ?_, current, _, rfl, List.prefix_refl _⟩
    -- the fresh cell keeps the field that it was opened for in front
    obtain ⟨behind, hbehind⟩ := hprefix
    refine ⟨⟨f.name, op, 0, size.bits, 0, size.refs⟩, ?_, fun hroom => ?_⟩
    · rw [← hbehind]
      rfl
    · rw [LayoutCell.canFit_of_le hc.used_fits hroom] at full
      cases full

/-! ## Layouts -/

/-- All cells are within their capacity, and each one overflows into the next. -/
def Layout.Tight (l : Layout) : Prop :=
  l.cells.IsChain LayoutCell.Overflows
    ∧ ∃ first rest, l.cells = first :: rest ∧ first.Fits ⟨l.reserved, 0⟩ ∧ ∀ c ∈ rest, c.Fits .zero

namespace LayoutCache

variable {s : TypeStore} {c : LayoutCache} {id : LayoutId} {l : Layout}

theorem Filled.tight {t : RecordType} {header : Option UInt32} {fields : List Field}
    (h : c.Filled id t header fields l) : l.Tight := by
  obtain ⟨cells, hcells, rfl⟩ := h
  have hempty := LayoutCell.fits_reserving (reservedBits_le id t.kind)
  exact ⟨(hcells.overflows hempty).1, hcells.fits hempty⟩

theorem Valid.tight (hc : Valid s c) (h : c.get? id = some l) : l.Tight := by
  obtain ⟨t, -, ⟨_, _, -, hl⟩ | ⟨name, full, -, -, hfull, rfl⟩⟩ := hc.filled_or_bounced h
  · exact hl.tight
  · -- what is left of a message is in one cell
    obtain ⟨first, rest, hcells, hfirst, -⟩ := hfull.fits
    obtain ⟨used, hone, hfits⟩ := Layout.bounced_cells hcells hfirst id t.fields
    exact ⟨hone ▸ List.isChain_singleton _, _, [], hone, hfits, by simp⟩

/--
In a layout that a request gives, each cell but the first starts with a placement that has no room in
the cell before it. The cells are a packing of the sizes of all placements behind the reserved bits,
and no other packing of these sizes in this order has fewer cells.
-/
theorem request_fewest {requested : List LayoutId}
    (h : (request s id).run (after s requested) = (.ok l, c)) :
    l.cells.IsChain LayoutCell.Overflows
      ∧ (∃ first rest, l.cells = first :: rest
        ∧ Packs ⟨l.reserved, 0⟩ (l.placements.map (·.size)) first.sizes (rest.map (·.sizes)))
      ∧ ∀ first rest, Packs ⟨l.reserved, 0⟩ (l.placements.map (·.size)) first rest →
        l.cells.length ≤ (first :: rest).length := by
  obtain ⟨-, hc, hl⟩ := (keeps_request s id (valid_after s requested)).ok_of_run h
  obtain ⟨hchain, first, rest, hcells, hfirst, hrest⟩ := hc.tight hl
  have hsizes : l.placements.map (·.size) = first.sizes ++ (rest.map (·.sizes)).flatten := by
    rw [Layout.placements, hcells, List.flatMap_cons, List.map_append, List.map_flatMap]
    rfl
  rw [hsizes]
  refine ⟨hchain, ⟨first, rest, hcells, rfl, hfirst.fitsBehind, ?_⟩, fun first' rest' hpacks => ?_⟩
  · exact List.forall_mem_map.2 fun c hmem => (hrest c hmem).fitsBehind
  · have hforced := forced_of_overflows (hcells ▸ hchain) hfirst hrest
    have hinOrder : first' ++ rest'.flatten = [] ++ (first.sizes ++ (rest.map (·.sizes)).flatten) :=
      hpacks.inOrder
    have hle := hforced.length_le hinOrder hpacks.first hpacks.rest
    rw [List.length_map] at hle
    rw [hcells]
    exact Nat.succ_le_succ hle

/-- The message of `sampleStore` is in two cells, and one would not do. -/
theorem request_fewest_sample : ∃ l c,
    (request sampleStore (.full "Pay")).run (after sampleStore [.full "Nobody"]) = (.ok l, c)
      ∧ l.cells.length = 2
      ∧ ∀ first, ¬Packs ⟨l.reserved, 0⟩ (l.placements.map (·.size)) first [] := by
  have hcells : ((request sampleStore (.full "Pay")).run
      (after sampleStore [.full "Nobody"])).1.toOption.map (·.cells.length) = some 2 := by
    decide +kernel
  rcases h : (request sampleStore (.full "Pay")).run (after sampleStore [.full "Nobody"])
    with ⟨e | l, c⟩
  · rw [h] at hcells
    cases hcells
  · rw [h] at hcells
    have hlength : l.cells.length = 2 := Option.some.inj hcells
    obtain ⟨-, -, hleast⟩ := request_fewest h
    refine ⟨l, c, rfl, hlength, fun first hpacks => ?_⟩
    have hle := hleast first [] hpacks
    rw [hlength, List.length_singleton] at hle
    omega

end LayoutCache
end CellPack
