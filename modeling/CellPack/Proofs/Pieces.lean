import Mathlib
import CellPack.Proofs.Linked
/-!
# Pieces of a written record

A serializer writes one piece for each placement, each behind the one before it in the cell of its
layout, and a reference to the next cell behind the last of them (`Machine.Laid.carries`).
-/

namespace CellPack

open Step

/-! ## Chains of pieces -/

namespace Builder

variable {P Q : Placement → Builder → Prop}

/-- The builder holds a piece for each of the placements, one behind the other. -/
inductive Pieces (P : Placement → Builder → Prop) : List Placement → Builder → Prop where
  | nil : Pieces P [] {}
  | cons {pl : Placement} {pls : List Placement} {e e' : Builder} (h : P pl e)
    (h' : Pieces P pls e') : Pieces P (pl :: pls) (e ++ e')

/-- The builder starts a chain of cells with their pieces. The last reference is the next cell. -/
inductive Carries (P : Placement → Builder → Prop) : List LayoutCell → Builder → Prop where
  | last {c : LayoutCell} {e : Builder} (h : e.Pieces P c.placements) : Carries P [c] e
  | next {c next : LayoutCell} {rest : List LayoutCell} {e child : Builder}
    (h : e.Pieces P c.placements) (h' : Carries P (next :: rest) child) :
    Carries P (c :: next :: rest) (e ++ .ofRef child.toCell)

theorem Pieces.split {pls pls' : List Placement} {e : Builder} (h : e.Pieces P (pls ++ pls')) :
    ∃ e₁ e₂, e = e₁ ++ e₂ ∧ e₁.Pieces P pls ∧ e₂.Pieces P pls' := by
  induction pls generalizing e with
  | nil => exact ⟨{}, e, rfl, .nil, h⟩
  | cons pl pls ih =>
    obtain _ | ⟨hpl, hrest⟩ := h
    obtain ⟨e₁, e₂, rfl, h₁, h₂⟩ := ih hrest
    exact ⟨_, e₂, (append_assoc _ e₁ e₂).symm, .cons hpl h₁, h₂⟩

/-- Pieces that fit their places together fit between the first place and the last one. -/
theorem Pieces.le (hle : ∀ pl e, P pl e → e.bits.length ≤ pl.bits ∧ e.refs.length ≤ pl.refs)
    {pls : List Placement} {e : Builder} (h : e.Pieces P pls) :
    ∀ {start stop : CellSize}, Contiguous start pls stop →
      start.bits + e.bits.length ≤ stop.bits ∧ start.refs + e.refs.length ≤ stop.refs := by
  induction h with
  | nil =>
    intro start stop hplaces
    obtain rfl : start = stop := hplaces
    exact ⟨le_refl _, le_refl _⟩
  | @cons pl pls e e' hpl _ ih =>
    rintro start stop ⟨-, -, hrest⟩
    obtain ⟨hbits, hrefs⟩ := ih hrest
    obtain ⟨hbits', hrefs'⟩ := hle pl e hpl
    simp only at hbits hrefs
    simp only [bits_append, refs_append, List.length_append]
    omega

end Builder

/-! ## Writing within so many steps -/

theorem Run.Reads.mono {α : Type} {l : Slice → Run (α × Slice)} {e : Builder} {k k' : Nat} {a : α}
    (h : Run.Reads l e k a) (hk : k ≤ k') : Run.Reads l e k' a := by
  obtain ⟨used, hused, hl⟩ := h
  exact ⟨used, hused.trans hk, hl⟩

namespace Machine

variable {shape : String → Option Shape} {first : String → CellSize} {valid : Prop}
  {store : String → Builder → Value → Run Builder} {load : String → Slice → Run (Value × Slice)}
  {limits : Limits} {p : Program} {v : Value} {declared : Shape} {is is' : List Instr} {l : Layout}
  {most : Nat} {builders : List Builder} {post post' : List Builder → Prop}

/--
The piece is within the place of a field. Reading the field takes it, in no more than so many steps,
and gives what writing keeps of the value.
-/
structure Piece (shape : String → Option Shape) (load : String → Slice → Run (Value × Slice))
    (declared : Shape) (v : Value) (most : Nat) (pl : Placement) (e : Builder) : Prop where
  bits_le : e.bits.length ≤ pl.bits
  refs_le : e.refs.length ≤ pl.refs
  reads : ∃ x, v.keptField shape declared pl.field = some (pl.field, x)
    ∧ Run.Reads (loadOp load pl.op) e most x

/-- If the instructions succeed within so many steps, their builders are as stated. -/
def LeadsWithin (store : String → Builder → Value → Run Builder) (limits : Limits) (p : Program)
    (v : Value) (most : Nat) (is : List Instr) (builders : List Builder)
    (post : List Builder → Prop) : Prop :=
  ∀ n ≤ most, Ends (storeAll store limits p v is builders) n
    (fun builders' n' => n' ≤ most ∧ post builders') fun _ _ => True

theorem LeadsWithin.append (h : LeadsWithin store limits p v most is builders post)
    (h' : ∀ builders', post builders' → LeadsWithin store limits p v most is' builders' post') :
    LeadsWithin store limits p v most (is ++ is') builders post' := by
  intro n hn
  rw [storeAll_append]
  exact (h n hn).bind fun builders' n' ⟨hn', hpost⟩ => h' builders' hpost n' hn'

theorem LeadsWithin.mono (h : LeadsWithin store limits p v most is builders post)
    (hpost : ∀ builders', post builders' → post' builders') :
    LeadsWithin store limits p v most is builders post' :=
  fun n hn => (h n hn).mono (fun builders' _ h => ⟨h.1, hpost builders' h.2⟩) fun _ _ h => h

theorem leadsWithin_nil (h : post builders) : LeadsWithin store limits p v most [] builders post :=
  fun _ hn => ends_pure ⟨hn, h⟩

theorem leadsWithin_one {i : Instr}
    (h : ∀ n ≤ most, Ends (storeInstr store p v builders i) n
      (fun builders' n' => n' ≤ most ∧ post builders') fun _ _ => True) :
    LeadsWithin store limits p v most [i] builders post :=
  fun _ hn => ends_storeAll_counted (fun _ _ _ => trivial) fun n' hn' => h n' (by omega)

/-! ## Pieces -/

section
variable {before : List Builder} {b : Builder} {index : Nat}

theorem leadsWithin_store {pl : Placement}
    (h : StoresPlacement shape valid store load declared pl) (hbefore : before.length = index)
    (hb : b.bits.length + pl.bits ≤ maxCellBits) (hr : b.refs.length + pl.refs ≤ maxCellRefs) :
    LeadsWithin store limits p v most [.store index pl.field pl.op] (before ++ [b]) fun builders =>
      ∃ e, builders = before ++ [b ++ e] ∧ Piece shape load declared v most pl e := by
  refine leadsWithin_one fun n hn => (ends_storePlacement h hbefore hb hr n).mono ?_ fun _ _ _ => trivial
  rintro builders n' ⟨-, e, k, x, rfl, rfl, hbits, hrefs, hkept, hreads⟩
  exact ⟨by omega, e, rfl, hbits, hrefs, x, hkept, hreads.mono (by omega)⟩

/-- The fields of one cell, one behind the other. -/
theorem leadsWithin_placements {pls : List Placement} {start stop : CellSize}
    (hplaces : Contiguous start pls stop)
    (h : ∀ pl ∈ pls, StoresPlacement shape valid store load declared pl)
    (hbefore : before.length = index) (hb : b.bits.length + (stop.bits - start.bits) ≤ maxCellBits)
    (hr : b.refs.length + (stop.refs - start.refs) ≤ maxCellRefs) :
    LeadsWithin store limits p v most (pls.map fun pl => .store index pl.field pl.op)
      (before ++ [b]) fun builders => ∃ e, builders = before ++ [b ++ e]
        ∧ e.Pieces (Piece shape load declared v most) pls := by
  induction pls generalizing start b with
  | nil =>
    refine leadsWithin_nil ⟨{}, ?_, .nil⟩
    rw [Builder.append_empty]
  | cons pl pls ih =>
    obtain ⟨-, -, hrest⟩ := hplaces
    obtain ⟨hpl, hpls⟩ := List.forall_mem_cons.1 h
    obtain ⟨hbits, hrefs⟩ := hrest.le
    simp only at hbits hrefs
    refine (leadsWithin_store hpl hbefore (by omega) (by omega)).append ?_
    rintro builders ⟨e, rfl, hpiece⟩
    have hbits' := hpiece.bits_le
    have hrefs' := hpiece.refs_le
    refine (ih hrest hpls (b := b ++ e) ?_ ?_).mono ?_
    · simp only [Builder.bits_append, List.length_append]
      omega
    · simp only [Builder.refs_append, List.length_append]
      omega
    · rintro builders ⟨e', rfl, hpieces⟩
      refine ⟨e ++ e', ?_, .cons hpiece hpieces⟩
      rw [Builder.append_assoc]

end

/-- The fields of all cells, each next cell behind the last reference of the one before. -/
theorem leadsWithin_storeCells (rest : List LayoutCell) :
    ∀ (c : LayoutCell) (index : Nat) (start : CellSize), c.Fits start → (∀ c ∈ rest, c.Fits .zero) →
      (∀ pl ∈ (c :: rest).flatMap (·.placements),
        StoresPlacement shape valid store load declared pl) →
      ∀ (before : List Builder) (b : Builder), before.length = index →
        b.bits.length + (c.used.bits - start.bits) ≤ maxCellBits →
        b.refs.length + (c.used.refs - start.refs + min 1 rest.length) ≤ maxCellRefs →
        LeadsWithin store limits p v most (Layout.storeCells index (c :: rest)) (before ++ [b])
          fun builders => ∃ e behind, builders = before ++ (b ++ e) :: behind
            ∧ e.Carries (Piece shape load declared v most) (c :: rest) := by
  induction rest with
  | nil =>
    intro c index start hc _ h before b hbefore hb hr
    rw [List.flatMap_cons, List.flatMap_nil, List.append_nil] at h
    refine (leadsWithin_placements hc.contiguous h hbefore hb hr).mono ?_
    rintro builders ⟨e, rfl, hpieces⟩
    exact ⟨e, [], rfl, .last hpieces⟩
  | cons next rest ih =>
    intro c index start hc hrest h before b hbefore hb hr
    have hnext := hrest next List.mem_cons_self
    obtain ⟨hnextBits, hnextRefs⟩ := CellSize.fitsCell_iff.1 hnext.used_fits
    simp only [usableCellRefs, maxCellRefs] at hnextRefs
    have hlink : min 1 (next :: rest).length = 1 := by simp
    rw [hlink] at hr
    rw [List.flatMap_cons] at h
    have hstores : Layout.storeCells index (c :: next :: rest) =
        (c.placements.map fun pl => Instr.store index pl.field pl.op)
          ++ ([.beginCell (index + 1)] ++ (Layout.storeCells (index + 1) (next :: rest)
            ++ [.endCell index (index + 1)])) := by
      simp [Layout.storeCells]
    rw [hstores]
    refine (leadsWithin_placements hc.contiguous (fun pl hpl => h pl (List.mem_append_left _ hpl))
      hbefore hb (by omega)).append ?_
    rintro builders ⟨f, rfl, hpieces⟩
    obtain ⟨hbits, hrefs⟩ := hpieces.le (fun _ _ h => ⟨h.bits_le, h.refs_le⟩) hc.contiguous
    have hbegin : LeadsWithin store limits p v most [.beginCell (index + 1)] (before ++ [b ++ f])
        fun builders => builders = before ++ [b ++ f] ++ [({} : Builder)] :=
      leadsWithin_one fun n hn => .of_ok (run_beginCell hbefore n) ⟨hn, rfl⟩
    refine hbegin.append ?_
    rintro builders rfl
    -- the rest of the chain starts in a builder of its own
    refine (ih next (index + 1) .zero hnext (fun c hc => hrest c (List.mem_cons_of_mem _ hc))
      (fun pl hpl => h pl (List.mem_append_right _ hpl)) (before ++ [b ++ f]) {} (by simp [hbefore])
      ?_ ?_).append ?_
    · exact (Nat.zero_add _).trans_le hnextBits
    · simp only [maxCellRefs, List.length_nil]
      omega
    rintro builders ⟨e, behind, rfl, hcarries⟩
    have hbits' : (b ++ f).bits.length ≤ maxCellBits := by
      rw [Builder.bits_append, List.length_append]
      omega
    have hrefs' : (b ++ f).refs.length + 1 ≤ maxCellRefs := by
      rw [Builder.refs_append, List.length_append]
      omega
    refine leadsWithin_one fun n hn => .of_ok (run_endCell hbefore hbits' hrefs' n) ⟨hn, ?_⟩
    refine ⟨f ++ .ofRef e.toCell, {} :: behind, ?_, .next hpieces hcarries⟩
    rw [Builder.empty_append, Builder.append_assoc]

/--
Behind the bits that a layout leaves to the caller, a serializer writes a header, if the layout has
one, and then the cells of the layout.
-/
theorem Laid.carries (laid : Laid first declared l)
    (h : ∀ pl ∈ l.placements, StoresPlacement shape valid store load declared pl) {b : Builder}
    (hb : b.bits.length ≤ l.flagBits) (hr : b.refs = []) :
    LeadsWithin store limits p v most l.serializer.instrs [b] fun builders => ∃ header e,
      builders.headD {} = b ++ header ++ e ∧ header.used = ⟨l.reserved - l.flagBits, 0⟩
        ∧ e.Carries (Piece shape load declared v most) l.cells := by
  obtain ⟨c, rest, hcells, hc, hrest⟩ := laid.cells
  obtain ⟨hfitBits, hfitRefs⟩ := CellSize.fitsCell_iff.1 hc.used_fits
  simp only [usableCellRefs, maxCellRefs] at hfitRefs
  have hle := hc.contiguous.le
  simp only at hle
  have hwrite : l.serializer.instrs =
      (l.header.map (Instr.storeHeader 0)).toList ++ Layout.storeCells 0 (c :: rest) := by
    rw [← hcells]
    rfl
  have hplacements : l.placements = (c :: rest).flatMap (·.placements) := by
    rw [Layout.placements, hcells]
  have hheader : LeadsWithin store limits p v most (l.header.map (Instr.storeHeader 0)).toList [b]
      fun builders => ∃ header, builders = [b ++ header]
        ∧ header.used = ⟨l.reserved - l.flagBits, 0⟩ := by
    unfold Layout.flagBits at hb ⊢
    cases hheader : l.header with
    | none =>
      refine leadsWithin_nil ⟨{}, by rw [Builder.append_empty], ?_⟩
      simp [Builder.used]
    | some header =>
      have hreserved := laid.header header hheader
      rw [hheader] at hb
      simp only [Option.isSome_some, if_true] at hb ⊢
      refine leadsWithin_one fun n hn => ?_
      refine .of_ok (run_storeHeader header List.length_nil (by omega) (by simp [hr]) n) ⟨hn, _, rfl, ?_⟩
      rw [hreserved]
      simp [Builder.used]
  have hflag := l.flagBits_le
  rw [hplacements] at h
  rw [hwrite, hcells]
  refine hheader.append ?_
  rintro builders ⟨header, rfl, hused⟩
  have hbits : header.bits.length = l.reserved - l.flagBits := congrArg CellSize.bits hused
  have hrefs : header.refs.length = 0 := congrArg CellSize.refs hused
  refine (leadsWithin_storeCells rest c 0 ⟨l.reserved, 0⟩ hc hrest h [] (b ++ header) rfl ?_ ?_).mono ?_
  · simp only [Builder.bits_append, List.length_append]
    omega
  · simp only [Builder.refs_append, List.length_append, hr, hrefs, maxCellRefs, List.length_nil]
    omega
  · rintro builders ⟨e, behind, rfl, hcarries⟩
    exact ⟨header, e, rfl, hused, hcarries⟩

end Machine
end CellPack
