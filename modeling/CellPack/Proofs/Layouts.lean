import Mathlib
import CellPack.Proofs.Requests
/-!
# Layouts

Whatever was requested before, a layout that a request gives has its cells within their capacity,
its placements in order without gaps and all its fields (`LayoutCache.request_wellPlaced`).
-/

namespace CellPack

/-! ## Well-placed layouts -/

namespace Layout

/--
All cells are within their capacity, placements follow each other without gaps up to the end of
what is used, and records in place have the size of their only cell.
-/
structure WellPlaced (nested : String → Layout → Prop) (l : Layout) : Prop where
  within : ∀ c ∈ l.cells, c.used.bits ≤ maxCellBits ∧ c.used.refs ≤ usableCellRefs
  contiguous : ∃ first rest, l.cells = first :: rest
    ∧ Contiguous ⟨l.reserved, 0⟩ first.placements first.used
    ∧ ∀ c ∈ rest, Contiguous .zero c.placements c.used
  inline : ∀ p ∈ l.placements, ∀ name, p.op = .record name false →
    ∃ n c, nested name n ∧ n.cells = [c] ∧ c.used.bits ≤ maxInlineBits ∧ p.size = c.used

/--
The layout is one cell with the longest run of leading fields of another layout that have no
references, each in its old place, and leaves out all fields behind them.
-/
structure LeadingPart (full : Layout) (fields : List Field) (l : Layout) : Prop where
  reserved : l.reserved = full.reserved
  cells : ∃ first kept behind used, full.cells.head? = some first
    ∧ first.placements = kept ++ behind ∧ l.cells = [⟨kept, used⟩]
    ∧ (∀ p ∈ kept, p.refs = 0) ∧ ∀ p ∈ behind.head?, p.refs ≠ 0
  omitted : l.placements.map (·.field) ++ l.omitted.map (·.1) = fields.map (·.name)

/-- The layout has all fields in order, or all that are left of them. -/
def Covers (nested : String → Layout → Prop) (t : RecordType) (l : Layout) : LayoutId → Prop
  | .full _ => l.placements.map (·.field) = t.fields.map (·.name)
  | .init _ => l.placements.map (·.field) = (t.init.getD []).map (·.name)
  | .bounced name => ∃ full, nested name full ∧ full.LeadingPart t.fields l

theorem wellPlaced_of_fits {nested : String → Layout → Prop} {l : Layout} {first : LayoutCell}
    {rest : List LayoutCell} (hcells : l.cells = first :: rest) (hfirst : first.Fits ⟨l.reserved, 0⟩)
    (hrest : ∀ c ∈ rest, c.Fits .zero)
    (inline : ∀ p ∈ l.placements, ∀ name, p.op = .record name false →
      ∃ n c, nested name n ∧ n.cells = [c] ∧ c.used.bits ≤ maxInlineBits ∧ p.size = c.used) :
    l.WellPlaced nested := by
  refine ⟨fun c hc => ?_, ⟨first, rest, hcells, hfirst.contiguous, fun c hc => ?_⟩, inline⟩
  · rw [hcells] at hc
    rcases List.mem_cons.1 hc with rfl | hc
    · exact CellSize.fitsCell_iff.1 hfirst.used_fits
    · exact CellSize.fitsCell_iff.1 (hrest c hc).used_fits
  · exact (hrest c hc).contiguous

/-- The leading fields of the first cell that have no references. -/
def leading (l : Layout) : List Placement :=
  (l.cells.head?.elim [] (·.placements)).takeWhile (·.refs = 0)

theorem leading_eq {l : Layout} {first : LayoutCell} {rest : List LayoutCell}
    (hcells : l.cells = first :: rest) : l.leading = first.placements.takeWhile (·.refs = 0) := by
  rw [leading, hcells]
  rfl

/-- The leading fields of a layout whose first cell is in order. -/
theorem bounced_cells {full : Layout} {first : LayoutCell} {rest : List LayoutCell}
    (hcells : full.cells = first :: rest) (hfirst : first.Fits ⟨full.reserved, 0⟩)
    (id : LayoutId) (fields : List Field) :
    ∃ used, (full.bounced id fields).cells = [⟨first.placements.takeWhile (·.refs = 0), used⟩]
      ∧ (⟨first.placements.takeWhile (·.refs = 0), used⟩ : LayoutCell).Fits ⟨full.reserved, 0⟩ := by
  have hsplit := hfirst.contiguous
  rw [← List.takeWhile_append_dropWhile (p := (·.refs = 0)) (l := first.placements)] at hsplit
  obtain ⟨used, hkept, hbehind⟩ := hsplit.split
  have hused : used.fitsCell = true := by
    have hlim := CellSize.fitsCell_iff.1 hfirst.used_fits
    exact CellSize.fitsCell_iff.2 ⟨hbehind.le.1.trans hlim.1, hbehind.le.2.trans hlim.2⟩
  have hreserved : full.reserved ≤ maxCellBits :=
    hkept.le.1.trans (CellSize.fitsCell_iff.1 hused).1
  obtain ⟨hfold, hfits⟩ := LayoutCell.foldl_place (.reserving full.reserved) hkept hused
    (LayoutCell.fits_reserving hreserved)
  refine ⟨used, ?_, hfits⟩
  rw [bounced, hcells]
  exact congrArg (fun c => [c]) hfold

theorem placements_bounced_subset {full : Layout} {first : LayoutCell} {rest : List LayoutCell}
    (hcells : full.cells = first :: rest) (hfirst : first.Fits ⟨full.reserved, 0⟩)
    (id : LayoutId) (fields : List Field) :
    (full.bounced id fields).placements ⊆ full.placements := by
  obtain ⟨used, hone, -⟩ := bounced_cells hcells hfirst id fields
  rw [placements, placements, hone, hcells, List.flatMap_singleton]
  exact fun p hp => List.mem_append_left _ ((List.takeWhile_prefix _).subset hp)

theorem leadingPart_bounced {full : Layout} {first : LayoutCell} {rest : List LayoutCell}
    (hcells : full.cells = first :: rest) (hfirst : first.Fits ⟨full.reserved, 0⟩)
    (id : LayoutId) {fields : List Field}
    (hnames : full.placements.map (·.field) = fields.map (·.name)) :
    full.LeadingPart fields (full.bounced id fields) := by
  obtain ⟨used, hone, -⟩ := bounced_cells hcells hfirst id fields
  have hsplit := List.takeWhile_append_dropWhile (p := (·.refs = 0)) (l := first.placements)
  refine ⟨rfl, ⟨first, _, _, used, by rw [hcells]; rfl, hsplit.symm, hone, ?_, ?_⟩, ?_⟩
  · intro p hp
    simpa using List.mem_takeWhile_imp hp
  · intro p hp
    have hhead := List.head?_dropWhile_not (·.refs = 0) first.placements
    rw [Option.mem_def.1 hp] at hhead
    simpa using hhead
  · have hkept : (full.bounced id fields).placements = first.placements.takeWhile (·.refs = 0) := by
      rw [placements, hone]
      exact List.append_nil _
    have homitted : (full.bounced id fields).omitted.map (·.1) =
        (fields.map (·.name)).drop (first.placements.takeWhile (·.refs = 0)).length := by
      rw [bounced, hcells, ← List.map_drop]
      exact List.map_map
    rw [hkept, homitted, ← hnames, placements, hcells, List.flatMap_cons, ← hsplit,
      List.append_assoc, List.map_append, List.takeWhile_append_dropWhile]
    rw [List.drop_left' (List.length_map _)]

end Layout

namespace LayoutCache

variable {s : TypeStore} {c : LayoutCache}

theorem reservedBits_le (id : LayoutId) (kind : RecordKind) :
    reservedBits id kind ≤ maxCellBits := by
  unfold reservedBits
  split <;> decide

section
variable {id : LayoutId} {t : RecordType} {header : Option UInt32} {fields : List Field} {l : Layout}

/-- But for its cells, a layout of fields is what it was asked for. -/
theorem Filled.eq_mk (h : c.Filled id t header fields l) :
    l = ⟨id, reservedBits id t.kind, header, l.cells, fields.map (·.name), []⟩ := by
  obtain ⟨cells, -, rfl⟩ := h
  rfl

theorem Filled.id_eq (h : c.Filled id t header fields l) : l.id = id := congrArg Layout.id h.eq_mk

theorem Filled.reserved_eq (h : c.Filled id t header fields l) :
    l.reserved = reservedBits id t.kind := congrArg Layout.reserved h.eq_mk

theorem Filled.header_eq (h : c.Filled id t header fields l) : l.header = header :=
  congrArg Layout.header h.eq_mk

theorem Filled.fields_eq (h : c.Filled id t header fields l) :
    l.fields = fields.map (·.name) := congrArg Layout.fields h.eq_mk

theorem Filled.omitted_eq (h : c.Filled id t header fields l) : l.omitted = [] :=
  congrArg Layout.omitted h.eq_mk

theorem Filled.fits (h : c.Filled id t header fields l) :
    ∃ first rest, l.cells = first :: rest ∧ first.Fits ⟨l.reserved, 0⟩
      ∧ ∀ c ∈ rest, c.Fits .zero := by
  obtain ⟨cells, hcells, rfl⟩ := h
  exact hcells.fits (LayoutCell.fits_reserving (reservedBits_le id t.kind))

theorem Filled.placed (h : c.Filled id t header fields l) :
    List.Forall₂ (PlacedAs c.Holds) fields l.placements := by
  obtain ⟨cells, hcells, rfl⟩ := h
  obtain ⟨placed, heq, hplaced⟩ := hcells.fields_placed
  rw [Layout.placements, heq]
  exact hplaced

theorem Filled.names (h : c.Filled id t header fields l) :
    l.placements.map (·.field) = fields.map (·.name) := names_of_placed h.placed

end

theorem Valid.holds (hc : Valid s c) {name : String} {l : Layout} (h : c.Holds name l) :
    ∃ t, s.get? name = some t
      ∧ c.Filled (.full name) t (if t.isMessage then t.headerValue else none) t.fields l :=
  hc.computed _ _ h

/-- A layout is one of fields of its record type, or what is left of the full layout. -/
theorem Valid.filled_or_bounced (hc : Valid s c) {id : LayoutId} {l : Layout}
    (h : c.get? id = some l) : ∃ t, s.get? id.typeName = some t ∧
      ((∃ header fields, fields ⊆ t.allFields ∧ c.Filled id t header fields l)
        ∨ ∃ name full, id = .bounced name ∧ c.Holds name full
          ∧ c.Filled (.full name) t (if t.isMessage then t.headerValue else none) t.fields full
          ∧ l = full.bounced id t.fields) := by
  obtain ⟨t, ht, hl⟩ := hc.computed id l h
  refine ⟨t, ht, ?_⟩
  cases id with
  | full name => exact .inl ⟨_, _, List.subset_append_left _ _, hl⟩
  | init name => exact .inl ⟨_, _, List.subset_append_right _ _, hl⟩
  | bounced name =>
    obtain ⟨full, hfull, rfl⟩ := hl
    obtain ⟨t', ht', hfilled⟩ := hc.holds hfull
    obtain rfl : t' = t := Option.some.inj (ht'.symm.trans ht)
    exact .inr ⟨name, full, rfl, hfull, hfilled, rfl⟩

/-- A record in place is placed with the size of the only cell of its layout. -/
theorem Valid.inline (hc : Valid s c) {fields : List Field} {ps : List Placement}
    (h : List.Forall₂ (PlacedAs c.Holds) fields ps) :
    ∀ p ∈ ps, ∀ name, p.op = .record name false →
      ∃ n cell, c.Holds name n ∧ n.cells = [cell] ∧ cell.used.bits ≤ maxInlineBits
        ∧ p.size = cell.used := by
  intro p hp name hop
  obtain ⟨f, -, hf⟩ := exists_field_of_placed h hp
  obtain ⟨current, hcost⟩ := hf.costs
  rw [hop] at hcost
  refine hcost.inline fun n hn => ?_
  obtain ⟨t, -, hfilled⟩ := hc.holds hn
  obtain ⟨first, rest, hcells, -⟩ := hfilled.fits
  rw [hcells]
  exact List.cons_ne_nil _ _

theorem Filled.wellPlaced (hc : Valid s c) {id : LayoutId} {t : RecordType}
    {header : Option UInt32} {fields : List Field} {l : Layout}
    (h : c.Filled id t header fields l) : l.WellPlaced c.Holds := by
  obtain ⟨first, rest, hcells, hfirst, hrest⟩ := h.fits
  exact Layout.wellPlaced_of_fits hcells hfirst hrest (hc.inline h.placed)

theorem wellPlaced_bounced (hc : Valid s c) {name : String} {full : Layout} {fields : List Field}
    (hfull : c.Holds name full) (id : LayoutId) : (full.bounced id fields).WellPlaced c.Holds := by
  obtain ⟨t, -, h⟩ := hc.holds hfull
  obtain ⟨first, rest, hcells, hfirst, -⟩ := h.fits
  obtain ⟨used, hone, hfits⟩ := Layout.bounced_cells hcells hfirst id fields
  refine Layout.wellPlaced_of_fits hone hfits (by simp) fun p hp => ?_
  exact hc.inline h.placed p (Layout.placements_bounced_subset hcells hfirst id fields hp)

/-- The layout that a request gives is in order, whatever was requested before. -/
theorem request_wellPlaced {requested : List LayoutId} {id : LayoutId} {l : Layout}
    {c : LayoutCache} (h : (request s id).run (after s requested) = (.ok l, c)) :
    ∃ t, s.get? id.typeName = some t
      ∧ l.WellPlaced (fun name n => (request s (.full name)).run c = (.ok n, c))
      ∧ l.Covers (fun name n => (request s (.full name)).run c = (.ok n, c)) t id := by
  obtain ⟨-, hc, hl⟩ := (keeps_request s id (valid_after s requested)).ok_of_run h
  obtain ⟨t, ht, hl⟩ := hc.computed id l hl
  have hheld (hw : l.WellPlaced c.Holds) :
      l.WellPlaced (fun name n => (request s (.full name)).run c = (.ok n, c)) := by
    refine ⟨hw.within, hw.contiguous, fun p hp name hop => ?_⟩
    obtain ⟨n, cell, hn, hrest⟩ := hw.inline p hp name hop
    exact ⟨n, cell, run_request hn, hrest⟩
  refine ⟨t, ht, ?_⟩
  cases id with
  | full name => exact ⟨hheld (hl.wellPlaced hc), hl.names⟩
  | init name => exact ⟨hheld (hl.wellPlaced hc), hl.names⟩
  | bounced name =>
    obtain ⟨full, hfull, rfl⟩ := hl
    obtain ⟨t', ht', hfilled⟩ := hc.holds hfull
    obtain rfl : t' = t := Option.some.inj (ht'.symm.trans ht)
    obtain ⟨first, rest, hcells, hfirst, -⟩ := hfilled.fits
    refine ⟨hheld (wellPlaced_bounced hc hfull _), full, run_request hfull, ?_⟩
    exact Layout.leadingPart_bounced hcells hfirst _ hfilled.names

end LayoutCache

/--
Records in place and behind references, a record inside itself, a message in several cells, and a
contract.
-/
def sampleStore : TypeStore where
  types :=
    [{ name := "Point", kind := .struct
       fields := [{ name := "x", type := .int (.int 257) }, { name := "y", type := .bits 12 }] },
     { name := "Wide", kind := .struct
       fields := [{ name := "a", type := .bits 1000 }, { name := "b", type := .bits 1000 }] },
     { name := "Node", kind := .struct
       fields :=
         [{ name := "value", type := .record "Point" },
           { name := "next", type := .optional (.record "Node") }] },
     { name := "Pay", kind := .message
       fields :=
         [{ name := "amount", type := .int .coins }, { name := "at", type := .record "Point" },
           { name := "wide", type := .record "Wide" }, { name := "path", type := .record "Node" },
           { name := "rest", type := .optional (.bits 900) }, { name := "note", type := .string }] },
     { name := "Wallet", kind := .contract
       fields :=
         [{ name := "owner", type := .address }, { name := "last", type := .record "Pay" }] }]
  types_distinct := by decide

namespace LayoutCache

/-- Behind a request that fails and one that succeeds, the rest of a message is in order. -/
theorem request_wellPlaced_bounced :
    ∃ l c, (request sampleStore (.bounced "Pay")).run
        (after sampleStore [.full "Nobody", .full "Node"]) = (.ok l, c)
      ∧ l.WellPlaced (fun name n => (request sampleStore (.full name)).run c = (.ok n, c)) := by
  have hok : ((request sampleStore (.bounced "Pay")).run
      (after sampleStore [.full "Nobody", .full "Node"])).1.isOk = true := by decide +kernel
  rcases h : (request sampleStore (.bounced "Pay")).run
    (after sampleStore [.full "Nobody", .full "Node"]) with ⟨e | l, c⟩
  · rw [h] at hok
    cases hok
  · obtain ⟨t, -, hl, -⟩ := request_wellPlaced h
    exact ⟨l, c, rfl, hl⟩

end LayoutCache
end CellPack
