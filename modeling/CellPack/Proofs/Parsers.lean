import Mathlib
import CellPack.Proofs.Programs
/-!
# Reading any cells as those of a layout

The instructions of a parser give exact values for whatever cells they are given, or find that the
cells are not what they expect (`loadsAll_cells`).
-/

namespace CellPack.Machine

open Step

variable {shape : String → Option Shape} {load : String → Slice → Run (Value × Slice)}
  {limits : Limits} {p : Program} {declared : Shape}

/--
From any slices up to `index`, the instructions open more of them and give fields of the names, all
as `P` says; or the cells are not what they expect.
-/
def LoadsAll (load : String → Slice → Run (Value × Slice)) (limits : Limits) (p : Program)
    (P : String × Value → Prop) (is : List Instr) (index opened : Nat) (names : List String) : Prop :=
  ∀ (r : Reading) (n : Nat), r.slices.length = index + 1 →
    Ends (loadAll load limits p is r) n
      (fun r' _ => r'.slices.length = index + 1 + opened
        ∧ ∃ fields, r'.loaded = r.loaded ++ fields ∧ fields.map (·.1) = names ∧ ∀ f ∈ fields, P f)
      fun e _ => Rejects e

section
variable {P Q : String × Value → Prop} {is is' : List Instr} {index opened opened' : Nat}
  {names names' : List String}

theorem loadsAll_nil (index : Nat) : LoadsAll load limits p P [] index 0 [] :=
  fun _ _ hr => ends_pure ⟨hr, [], (List.append_nil _).symm, rfl, by simp⟩

theorem LoadsAll.mono (h : LoadsAll load limits p P is index opened names) (hP : ∀ f, P f → Q f) :
    LoadsAll load limits p Q is index opened names := by
  intro r n hr
  refine (h r n hr).mono ?_ fun _ _ he => he
  rintro r' n' ⟨hlen, fields, hloaded, hnames, hall⟩
  exact ⟨hlen, fields, hloaded, hnames, fun f hf => hP f (hall f hf)⟩

theorem LoadsAll.append (h : LoadsAll load limits p P is index opened names)
    (h' : LoadsAll load limits p P is' (index + opened) opened' names') :
    LoadsAll load limits p P (is ++ is') index (opened + opened') (names ++ names') := by
  intro r n hr
  rw [loadAll_append]
  refine (h r n hr).bind ?_
  rintro r' n' ⟨hlen, fields, hloaded, hnames, hall⟩
  refine (h' r' n' (by omega)).mono ?_ fun _ _ he => he
  rintro r'' n'' ⟨hlen', fields', hloaded', hnames', hall'⟩
  refine ⟨by omega, fields ++ fields', ?_, ?_, ?_⟩
  · rw [hloaded', hloaded, List.append_assoc]
  · rw [List.map_append, hnames, hnames']
  · intro f hf
    exact (List.mem_append.1 hf).elim (hall f) (hall' f)

theorem ends_slot {i : Instr} {r : Reading} (hr : index < r.slices.length) (n : Nat)
    {bad : RuntimeError → Nat → Prop} :
    Ends (p.slot i r.slices index) n (fun _ _ => True) bad :=
  .of_ok (run_slot (List.getElem?_eq_getElem hr) n) trivial

theorem loadsAll_checkHeader (header : UInt32) (hindex : index = 0) :
    LoadsAll load limits p P [.checkHeader 0 header] index 0 [] := by
  subst hindex
  intro r n hr
  refine ends_loadAll_one fun n' => ?_
  refine (ends_slot (by omega) n').bind fun s n' _ => ?_
  refine (Run.ends_read (Slice.yields_loadUint (n := headerBits) (by decide)) s n').bind fun x n' _ => ?_
  simp only
  split
  · exact ends_throw (.inr rfl)
  · refine ends_pure ⟨?_, [], (List.append_nil _).symm, rfl, by simp⟩
    simpa using hr

theorem loadsAll_openCell (index : Nat) :
    LoadsAll load limits p P [.openCell index (index + 1)] index 1 [] := by
  intro r n hr
  refine ends_loadAll_one fun n' => ?_
  have hchild : ¬index + 1 ≠ r.slices.length := by omega
  simp only [loadInstr, if_neg hchild]
  refine (ends_slot (by omega) n').bind fun s n' _ => ?_
  refine (Run.ends_read Slice.yields_loadRef s n').bind fun x n' _ => ?_
  refine ends_pure ⟨?_, [], (List.append_nil _).symm, rfl, by simp⟩
  simpa using hr

theorem loadsAll_load {field : String} {op : FieldOp} {Exact : Value → Prop}
    (h : ∀ s n, Ends (loadOp load op s) n (fun r _ => Exact r.1) fun e _ => Rejects e)
    (hP : ∀ v, Exact v → P (field, v)) (index : Nat) :
    LoadsAll load limits p P [.load index field op] index 0 [field] := by
  intro r n hr
  refine ends_loadAll_one fun n' => ?_
  refine (ends_slot (by omega) n').bind fun s n' _ => (h s n').bind fun x n' hx => ?_
  refine ends_pure ⟨?_, [(field, x.1)], rfl, rfl, ?_⟩
  · simpa using hr
  · simpa using hP x.1 hx

theorem loadsAll_setDefaults (omitted : List (String × DefaultValue)) (index : Nat) :
    LoadsAll load limits p (fun _ => True) (omitted.map fun d => .setDefault d.1 d.2) index 0
      (omitted.map (·.1)) := by
  induction omitted with
  | nil => exact loadsAll_nil index
  | cons d omitted ih =>
    have hone : LoadsAll load limits p (fun _ => True) [.setDefault d.1 d.2] index 0 [d.1] := by
      intro r n hr
      refine ends_loadAll_one fun n' => ends_pure ⟨hr, [(d.1, ofDefault d.2)], rfl, rfl, ?_⟩
      simp
    exact hone.append ih

/-- The field of the placement is declared, and it is read as an exact value. -/
def LoadsPlacement (shape : String → Option Shape) (load : String → Slice → Run (Value × Slice))
    (declared : Shape) (pl : Placement) : Prop :=
  ∃ type, declared.lookup pl.field = some type ∧
    ∀ s n, Ends (loadOp load pl.op s) n (fun r _ => r.1.Exact shape type) fun e _ => Rejects e

/-- The field is declared, and its value is exact. -/
def ExactField (shape : String → Option Shape) (declared : Shape) (f : String × Value) : Prop :=
  ∃ type, declared.lookup f.1 = some type ∧ f.2.Exact shape type

theorem loadsAll_placements {pls : List Placement} (index : Nat)
    (h : ∀ pl ∈ pls, LoadsPlacement shape load declared pl) :
    LoadsAll load limits p (ExactField shape declared)
      (pls.map fun pl => .load index pl.field pl.op) index 0 (pls.map (·.field)) := by
  induction pls with
  | nil => exact loadsAll_nil index
  | cons pl pls ih =>
    obtain ⟨type, htype, hloads⟩ := h pl List.mem_cons_self
    have hbehind := ih fun pl hpl => h pl (List.mem_cons_of_mem _ hpl)
    exact (loadsAll_load hloads (fun v hv => ⟨type, htype, hv⟩) index).append hbehind

/-- Any cells read as exact fields, one for each placement. -/
theorem loadsAll_cells (rest : List LayoutCell) :
    ∀ (c : LayoutCell) (index : Nat),
      (∀ pl ∈ (c :: rest).flatMap (·.placements), LoadsPlacement shape load declared pl) →
      LoadsAll load limits p (ExactField shape declared) (Layout.loadCells index (c :: rest)) index
        rest.length (((c :: rest).flatMap (·.placements)).map (·.field)) := by
  induction rest with
  | nil =>
    intro c index h
    have hcells : [c].flatMap (·.placements) = c.placements := List.append_nil _
    rw [hcells] at h ⊢
    exact loadsAll_placements index h
  | cons next rest ih =>
    intro c index h
    have hsplit : (c :: next :: rest).flatMap (·.placements) =
        c.placements ++ (next :: rest).flatMap (·.placements) := List.flatMap_cons
    rw [hsplit] at h ⊢
    have hrest := ih next (index + 1) fun pl hpl => h pl (List.mem_append_right _ hpl)
    have hall := (loadsAll_placements index fun pl hpl =>
      h pl (List.mem_append_left _ hpl)).append ((loadsAll_openCell index).append hrest)
    rw [List.map_append]
    have hopened : 0 + (1 + rest.length) = (next :: rest).length := by
      simp
      omega
    rw [hopened] at hall
    exact hall

end

end CellPack.Machine
