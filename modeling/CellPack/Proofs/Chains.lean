import Mathlib
import CellPack.Proofs.Capacities
import CellPack.Proofs.Pieces
import CellPack.Proofs.RoundTrip
/-!
# Chains of written cells

The cell of a written record starts a chain along the last references that has the cells of its
layout: each with no more bits and references than the layout says, and one reference more for the
next cell (`Builder.Chained`).
-/

namespace CellPack

open Step

/-- The cell that so many last references lead to. -/
def Cell.follow : Nat → Cell → Option Cell
  | 0, c => some c
  | k + 1, c => c.refs.getLast?.bind (follow k)

namespace Builder

/--
A builder with a chain behind it: its cells have at most these sizes, and all but the last one refer
to the next one behind that.
-/
inductive Chained : List CellSize → Builder → Prop where
  | last {size : CellSize} {e : Builder} (bits : e.bits.length ≤ size.bits)
    (refs : e.refs.length ≤ size.refs) : Chained [size] e
  | next {size size' : CellSize} {sizes : List CellSize} {e child : Builder}
    (bits : e.bits.length ≤ size.bits) (refs : e.refs.length ≤ size.refs)
    (h : Chained (size' :: sizes) child) :
    Chained (size :: size' :: sizes) (e ++ .ofRef child.toCell)

variable {size size' : CellSize} {sizes : List CellSize} {e : Builder}

/-- More in front, within the size of the first cell. -/
theorem Chained.prepend {b : Builder} (h : Chained (size :: sizes) e)
    (hb : b.bits.length + size.bits ≤ size'.bits) (hr : b.refs.length + size.refs ≤ size'.refs) :
    Chained (size' :: sizes) (b ++ e) := by
  cases h with
  | last bits refs =>
    refine .last ?_ ?_
    · rw [bits_append, List.length_append]
      omega
    · rw [refs_append, List.length_append]
      omega
  | next bits refs h =>
    rw [← append_assoc]
    refine .next ?_ ?_ h
    · rw [bits_append, List.length_append]
      omega
    · rw [refs_append, List.length_append]
      omega

/-- Every cell of the chain is found, within its size. -/
theorem Chained.follow (h : Chained sizes e) :
    ∀ k size, sizes[k]? = some size → ∃ c, e.toCell.follow k = some c
      ∧ c.bits.length ≤ size.bits
      ∧ c.refs.length ≤ size.refs + (if k + 1 < sizes.length then 1 else 0)
      ∧ (k + 1 < sizes.length → 1 ≤ c.refs.length) := by
  induction h with
  | @last size e bits refs =>
    intro k size' hk
    obtain ⟨rfl, rfl⟩ : k = 0 ∧ size = size' := by
      cases k with
      | zero => exact ⟨rfl, Option.some.inj hk⟩
      | succ k => cases hk
    exact ⟨e.toCell, rfl, bits, refs.trans (Nat.le_add_right _ _), by simp⟩
  | @next size next sizes e child bits refs _ ih =>
    intro k size' hk
    cases k with
    | zero =>
      obtain rfl : size = size' := Option.some.inj hk
      refine ⟨_, rfl, ?_, ?_, fun _ => ?_⟩
      · simpa [toCell, Cell.bits] using bits
      · simpa [toCell, Cell.refs] using refs
      · simp [toCell, Cell.refs]
    | succ k =>
      obtain ⟨c, hc, hbits, hrefs, hnext⟩ := ih k size' hk
      refine ⟨c, ?_, hbits, ?_, fun hlt => hnext (by simpa using hlt)⟩
      · have hlast : (e ++ ofRef child.toCell).toCell.refs.getLast? = some child.toCell := by
          simp [toCell, Cell.refs]
        rw [Cell.follow, hlast]
        exact hc
      · simpa using hrefs

/-- The pieces of a chain are within the sizes of its cells, short of what starts the first one. -/
theorem Carries.chained {P : Placement → Builder → Prop}
    (hle : ∀ pl e, P pl e → e.bits.length ≤ pl.bits ∧ e.refs.length ≤ pl.refs)
    {cells : List LayoutCell} (h : e.Carries P cells) :
    ∀ c rest, cells = c :: rest → ∀ start, c.Fits start → (∀ c ∈ rest, c.Fits .zero) →
      e.Chained (⟨c.used.bits - start.bits, c.used.refs - start.refs⟩ :: rest.map (·.used)) := by
  induction h with
  | last hpieces =>
    rintro c rest ⟨⟩ start hc -
    obtain ⟨hbits, hrefs⟩ := hpieces.le hle hc.contiguous
    exact .last (Nat.le_sub_of_add_le' hbits) (Nat.le_sub_of_add_le' hrefs)
  | @next _ next rest _ _ hpieces _ ih =>
    rintro c _ ⟨⟩ start hc hrest
    obtain ⟨hbits, hrefs⟩ := hpieces.le hle hc.contiguous
    obtain ⟨hnext, hrest⟩ := List.forall_mem_cons.1 hrest
    exact .next (Nat.le_sub_of_add_le' hbits) (Nat.le_sub_of_add_le' hrefs)
      (ih next rest rfl .zero hnext hrest)

end Builder

namespace Machine

/-! ## Cells of a layout -/

/-- From an empty builder, a serializer writes the cells of its layout. -/
theorem Laid.leads {shape : String → Option Shape} {first : String → CellSize} {valid : Prop}
    {store : String → Builder → Value → Run Builder} {load : String → Slice → Run (Value × Slice)}
    {limits : Limits} {p : Program} {v : Value} {declared : Shape} {l : Layout}
    (laid : Laid first declared l)
    (h : ∀ pl ∈ l.placements, StoresPlacement shape valid store load declared pl) :
    Leads store limits p v l.serializer.instrs [{}] fun builders =>
      (builders.headD {}).Chained (l.cells.map (·.used)) := by
  intro n
  obtain ⟨c, rest, hcells, hc, hrest⟩ := laid.cells
  have hle := hc.contiguous.le
  refine (laid.carries h (b := {}) (Nat.zero_le _) rfl n (le_refl n)).mono ?_ fun _ _ h => h
  rintro builders n' ⟨-, header, e, hhead, hused, hcarries⟩
  have hbits : header.bits.length = l.reserved - l.flagBits := congrArg CellSize.bits hused
  have hrefs : header.refs.length = 0 := congrArg CellSize.refs hused
  have hchained := hcarries.chained (fun _ _ h => ⟨h.bits_le, h.refs_le⟩) c rest hcells _ hc hrest
  simp only at hle
  rw [hhead, Builder.empty_append, hcells]
  refine hchained.prepend ?_ ?_
  · simp only
    omega
  · simp only
    omega

/-- A record of a linked set is written as a chain of the cells of its layout. -/
theorem Linked.serialize_chained {m : Machine} {shape : String → Option Shape}
    {first : String → CellSize} {records : String → Prop} {name : String} {declared : Shape}
    {l : Layout} (linked : Linked m.programs shape first records) (hname : records name)
    (hshape : shape name = some declared) (code : Code m.programs first name declared l)
    {v : Value} {c : Cell} (hc : m.serialize name v = .ok c) :
    ∃ e : Builder, c = e.toCell ∧ e.Chained (l.cells.map (·.used)) := by
  obtain ⟨depth, builders, n, -, rfl, hstore⟩ := exists_storeAll code.serializer hc
  have hplaced : ∀ pl ∈ l.placements, StoresPlacement shape False
      (storeProgram m.programs m.limits depth) (loadRecord m.programs m.limits depth) declared pl :=
    linked.storesPlacement nofun code.toLaid nofun (linked.mentioned name declared hname hshape)
      depth
  exact ⟨_, rfl, (code.toLaid.leads hplaced _).ok_of_run hstore⟩

end Machine

/-! ## Compiled stores -/

namespace Artifact

variable {s : TypeStore} {o : CompileOptions} {tools : Toolchain} {art : Artifact}

/--
From the cell of a written record, last references lead through as many cells as its layout has,
each within what the layout says of it, with a reference more if another one follows. If the cells
in the value are within the capacity of a cell, all cells that are written are.
-/
theorem serialize_chain (hart : s.compile o tools = .ok art) (hplain : s.PlainNames)
    (hdistinct : s.DistinctFields) {name : String} (hname : s.LaidOut name) :
    ∃ a l, s.analyze tools.evaluator = .ok a ∧ a.layouts.get? (.full name) = some l ∧ l.cells ≠ []
      ∧ ∀ limits v c, (art.machine limits).serialize name v = .ok c →
        (∀ k cell, l.cells[k]? = some cell → ∃ found, c.follow k = some found
          ∧ found.bits.length ≤ cell.used.bits
          ∧ found.refs.length ≤ cell.used.refs + (if k + 1 < l.cells.length then 1 else 0)
          ∧ (k + 1 < l.cells.length → 1 ≤ found.refs.length))
        ∧ (v.Capped → c.Capped) := by
  obtain ⟨a, link, hanalyze, ha, hprograms, linked⟩ := exists_analysis hart hplain hdistinct
  obtain ⟨t, l, ht, rfl, hkind, hshape, hl, hfilled⟩ := ha.exists_layout hname
  have code := ha.code hplain hdistinct link ht hkind hl hfilled
  rw [← hprograms] at code
  have hcells : l.cells ≠ [] := by
    obtain ⟨c, rest, hcells, -⟩ := code.cells
    rw [hcells]
    exact List.cons_ne_nil c rest
  refine ⟨a, l, hanalyze, hl, hcells, fun limits v c hc => ⟨fun k cell hk => ?_, fun hv => ?_⟩⟩
  · have linked' : Machine.Linked (art.machine limits).programs s.shape a.firstSize s.LaidOut :=
      linked
    obtain ⟨e, rfl, hchained⟩ := linked'.serialize_chained hname hshape code hc
    have hk' : (l.cells.map (·.used))[k]? = some cell.used := by rw [List.getElem?_map, hk]; rfl
    simpa using hchained.follow k cell.used hk'
  · exact Machine.capped_storeAfter (Nat.zero_le _) hv hc

/-- Two strings of which one cell can hold only one. -/
def sampleWide : Value :=
  .record [("a", .bits (List.replicate 125 0xab)), ("b", .bits (List.replicate 125 0xcd))]

theorem capped_sampleWide : sampleWide.Capped := by
  refine .record fun field hfield => ?_
  simp only [List.mem_cons, List.not_mem_nil, or_false] at hfield
  rcases hfield with rfl | rfl
  · exact .bits _
  · exact .bits _

/-- The second cell of the chain is there, with no more than the second string. -/
theorem serialize_chain_sample : ∃ art c next, sampleStore.compile { entry := "Wallet" } = .ok art
    ∧ (art.machine {}).serialize "Wide" sampleWide = .ok c ∧ c.Capped ∧ 1 ≤ c.refs.length
    ∧ c.follow 1 = some next ∧ next.bits.length ≤ 1000 ∧ next.refs.length ≤ 0 := by
  have hcells : (sampleStore.analyze Expr.evaluate).toOption.all (fun a =>
      (a.layouts.get? (.full "Wide")).all fun l =>
        l.cells.map (·.used) = [⟨1000, 0⟩, ⟨1000, 0⟩]) = true := by decide +kernel
  have hrun : (sampleStore.compile { entry := "Wallet" }).toOption.any (fun art =>
      ((art.machine {}).serialize "Wide" sampleWide).isOk) = true := by decide +kernel
  have hwide : sampleStore.LaidOut "Wide" := ⟨_, rfl, rfl⟩
  obtain ⟨art, hart⟩ := exists_sample
  obtain ⟨a, l, ha, hl, -, hchain⟩ :=
    serialize_chain hart plainNames_sample distinctFields_sample hwide
  rw [hart] at hrun
  obtain ⟨c, hc⟩ := exists_of_isOk hrun
  rw [ha] at hcells
  change (a.layouts.get? (.full "Wide")).all _ = true at hcells
  rw [hl] at hcells
  have hsizes : l.cells.map (·.used) = [⟨1000, 0⟩, ⟨1000, 0⟩] := of_decide_eq_true hcells
  have hlength : l.cells.length = 2 := by simpa using congrArg List.length hsizes
  have hcell (k : Nat) (hk : k < 2) : ∃ cell, l.cells[k]? = some cell ∧ cell.used = ⟨1000, 0⟩ := by
    refine Option.map_eq_some_iff.1 ?_
    rw [← List.getElem?_map, hsizes]
    match k, hk with
    | 0, _ | 1, _ => rfl
  obtain ⟨hfollow, hcapped⟩ := hchain {} sampleWide c hc
  obtain ⟨cell, hfirst, -⟩ := hcell 0 (by decide)
  obtain ⟨cell', hsecond, hused⟩ := hcell 1 (by decide)
  obtain ⟨root, hroot, -, -, hnext⟩ := hfollow 0 cell hfirst
  obtain ⟨next, hfound, hbits, hrefs, -⟩ := hfollow 1 cell' hsecond
  obtain rfl : c = root := Option.some.inj hroot
  rw [hlength] at hnext hrefs
  rw [hused] at hbits hrefs
  exact ⟨art, c, next, hart, hc, hcapped capped_sampleWide, hnext (by decide), hfound, hbits, hrefs⟩

end Artifact
end CellPack
