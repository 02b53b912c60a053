import Mathlib
import CellPack.Layout.Programs
import CellPack.Proofs.Layouts
/-!
# Order of instructions

A serializer begins each cell of a chain within the one before it and ends it there, the last cell
first. A parser opens each cell behind the one before it. Both go through the fields in the order of
the placements (`LayoutCache.request_aligned`).
-/

namespace CellPack

/-! ## Places of instructions -/

namespace Instr

/-- The cells that an instruction names. -/
def cells : Instr → List Nat
  | beginCell k | storeHeader k _ | store k _ _ | checkHeader k _ | load k _ _ => [k]
  | endCell parent child | openCell parent child => [parent, child]
  | setDefault _ _ => []

/-- The cell, the field and the operation of an instruction that writes a field. -/
def stored? : Instr → Option (Nat × String × FieldOp)
  | store k field op => some (k, field, op)
  | _ => none

/-- The cell, the field and the operation of an instruction that reads a field. -/
def loaded? : Instr → Option (Nat × String × FieldOp)
  | load k field op => some (k, field, op)
  | _ => none

/--
The cell behind cell `k` is begun once, before it is used, and ended once, behind all its uses. It
ends into cell `k`, which has all its fields by then.
-/
def Encloses (k : Nat) (is : List Instr) : Prop :=
  ∃ before inside after,
    is = before ++ .beginCell (k + 1) :: inside ++ .endCell k (k + 1) :: after
      ∧ (∀ i ∈ before ++ after, k + 1 ∉ i.cells)
      ∧ .beginCell (k + 1) ∉ inside ∧ (∀ parent, .endCell parent (k + 1) ∉ inside)
      ∧ ∀ field op, .store k field op ∉ inside ++ after

/--
The cell behind cell `k` is opened once, out of cell `k`, which is not used any more then. It is not
used before.
-/
def Opens (k : Nat) (is : List Instr) : Prop :=
  ∃ before after, is = before ++ .openCell k (k + 1) :: after
    ∧ (∀ i ∈ before, k + 1 ∉ i.cells) ∧ (∀ i ∈ after, k ∉ i.cells)
    ∧ ∀ parent, .openCell parent (k + 1) ∉ after

variable {k : Nat} {is : List Instr}

theorem Encloses.prepend (h : Encloses k is) {front : List Instr}
    (hfront : ∀ i ∈ front, k + 1 ∉ i.cells) : Encloses k (front ++ is) := by
  obtain ⟨before, inside, after, rfl, hother, hrest⟩ := h
  refine ⟨front ++ before, inside, after, by simp, ?_, hrest⟩
  rw [List.append_assoc]
  exact List.forall_mem_append.2 ⟨hfront, hother⟩

theorem Encloses.append (h : Encloses k is) {back : List Instr}
    (hback : ∀ i ∈ back, k + 1 ∉ i.cells) (hstores : ∀ field op, .store k field op ∉ back) :
    Encloses k (is ++ back) := by
  obtain ⟨before, inside, after, rfl, hother, hbegin, hend, hfields⟩ := h
  refine ⟨before, inside, after ++ back, by simp, ?_, hbegin, hend, fun field op => ?_⟩
  · rw [← List.append_assoc]
    exact List.forall_mem_append.2 ⟨hother, hback⟩
  · rw [← List.append_assoc, List.mem_append, not_or]
    exact ⟨hfields field op, hstores field op⟩

theorem Opens.prepend (h : Opens k is) {front : List Instr}
    (hfront : ∀ i ∈ front, k + 1 ∉ i.cells) : Opens k (front ++ is) := by
  obtain ⟨before, after, rfl, hbefore, hrest⟩ := h
  refine ⟨front ++ before, after, by simp, ?_, hrest⟩
  exact List.forall_mem_append.2 ⟨hfront, hbefore⟩

end Instr

/-! ## Instructions of cells -/

namespace LayoutCell

/-- The instructions that write the fields of a cell. -/
def stores (c : LayoutCell) (k : Nat) : List Instr :=
  c.placements.map fun p => .store k p.field p.op

/-- The instructions that read the fields of a cell. -/
def loads (c : LayoutCell) (k : Nat) : List Instr :=
  c.placements.map fun p => .load k p.field p.op

theorem mem_stores {c : LayoutCell} {k : Nat} {i : Instr} (h : i ∈ c.stores k) :
    ∃ field op, i = .store k field op := by
  obtain ⟨p, -, rfl⟩ := List.mem_map.1 h
  exact ⟨_, _, rfl⟩

theorem mem_loads {c : LayoutCell} {k : Nat} {i : Instr} (h : i ∈ c.loads k) :
    ∃ field op, i = .load k field op := by
  obtain ⟨p, -, rfl⟩ := List.mem_map.1 h
  exact ⟨_, _, rfl⟩

theorem not_mem_cells_of_stores (c : LayoutCell) {n k : Nat} (h : n < k) :
    ∀ i ∈ c.stores n, k ∉ i.cells := by
  intro i hi hk
  obtain ⟨field, op, rfl⟩ := mem_stores hi
  exact h.ne' (List.mem_singleton.1 hk)

theorem not_mem_cells_of_loads (c : LayoutCell) {n k : Nat} (h : n < k) :
    ∀ i ∈ c.loads n, k ∉ i.cells := by
  intro i hi hk
  obtain ⟨field, op, rfl⟩ := mem_loads hi
  exact h.ne' (List.mem_singleton.1 hk)

end LayoutCell

namespace Layout

theorem storeCells_cons (n : Nat) (c next : LayoutCell) (rest : List LayoutCell) :
    storeCells n (c :: next :: rest) = c.stores n
      ++ .beginCell (n + 1) :: storeCells (n + 1) (next :: rest) ++ [.endCell n (n + 1)] := rfl

theorem loadCells_cons (n : Nat) (c next : LayoutCell) (rest : List LayoutCell) :
    loadCells n (c :: next :: rest) =
      c.loads n ++ .openCell n (n + 1) :: loadCells (n + 1) (next :: rest) := rfl

/-- What writes cells is the fields of one, or the start or the end of the one behind it. -/
theorem mem_storeCells {i : Instr} (c : LayoutCell) (rest : List LayoutCell) : ∀ n,
    i ∈ storeCells n (c :: rest) →
      (∃ k field op, i = .store k field op ∧ n ≤ k ∧ k ≤ n + rest.length)
        ∨ ∃ k, (i = .beginCell (k + 1) ∨ i = .endCell k (k + 1)) ∧ n ≤ k ∧ k < n + rest.length := by
  induction rest generalizing c with
  | nil =>
    intro n h
    obtain ⟨field, op, rfl⟩ := LayoutCell.mem_stores h
    exact .inl ⟨n, field, op, rfl, le_refl n, le_refl n⟩
  | cons next rest ih =>
    intro n h
    rw [storeCells_cons, List.length_cons] at *
    simp only [List.mem_append, List.mem_cons, List.not_mem_nil, or_false] at h
    rcases h with (h | rfl | h) | rfl
    · obtain ⟨field, op, rfl⟩ := LayoutCell.mem_stores h
      exact .inl ⟨n, field, op, rfl, le_refl n, by omega⟩
    · exact .inr ⟨n, .inl rfl, le_refl n, by omega⟩
    · rcases ih next (n + 1) h with ⟨k, field, op, hi, hle, hlt⟩ | ⟨k, hi, hle, hlt⟩
      · exact .inl ⟨k, field, op, hi, by omega, by omega⟩
      · exact .inr ⟨k, hi, by omega, by omega⟩
    · exact .inr ⟨n, .inr rfl, le_refl n, by omega⟩

/-- What reads cells is the fields of one, or the start of the one behind it. -/
theorem mem_loadCells {i : Instr} (c : LayoutCell) (rest : List LayoutCell) : ∀ n,
    i ∈ loadCells n (c :: rest) →
      (∃ k field op, i = .load k field op ∧ n ≤ k ∧ k ≤ n + rest.length)
        ∨ ∃ k, i = .openCell k (k + 1) ∧ n ≤ k ∧ k < n + rest.length := by
  induction rest generalizing c with
  | nil =>
    intro n h
    obtain ⟨field, op, rfl⟩ := LayoutCell.mem_loads h
    exact .inl ⟨n, field, op, rfl, le_refl n, le_refl n⟩
  | cons next rest ih =>
    intro n h
    rw [loadCells_cons, List.length_cons] at *
    simp only [List.mem_append, List.mem_cons] at h
    rcases h with h | rfl | h
    · obtain ⟨field, op, rfl⟩ := LayoutCell.mem_loads h
      exact .inl ⟨n, field, op, rfl, le_refl n, by omega⟩
    · exact .inr ⟨n, rfl, le_refl n, by omega⟩
    · rcases ih next (n + 1) h with ⟨k, field, op, hi, hle, hlt⟩ | ⟨k, hi, hle, hlt⟩
      · exact .inl ⟨k, field, op, hi, by omega, by omega⟩
      · exact .inr ⟨k, hi, by omega, by omega⟩

/-- The second cell is begun behind the fields of the first one, and ended last of all. -/
theorem encloses_second (c next : LayoutCell) (rest : List LayoutCell) (n : Nat) :
    Instr.Encloses n (storeCells n (c :: next :: rest)) := by
  -- the instructions inside are on cells from the second one on
  have hinside {i : Instr} (hi : i ∈ storeCells (n + 1) (next :: rest)) :=
    mem_storeCells next rest (n + 1) hi
  refine ⟨c.stores n, storeCells (n + 1) (next :: rest), [], rfl, ?_, fun hi => ?_,
    fun parent hi => ?_, fun field op hi => ?_⟩
  · rw [List.append_nil]
    exact c.not_mem_cells_of_stores (Nat.lt_succ_self n)
  · obtain ⟨_, _, _, heq, -⟩ | ⟨k, heq | heq, hk, -⟩ := hinside hi <;> cases heq
    exact absurd hk (Nat.not_succ_le_self n)
  · obtain ⟨_, _, _, heq, -⟩ | ⟨k, heq | heq, hk, -⟩ := hinside hi <;> cases heq
    exact absurd hk (Nat.not_succ_le_self n)
  · rw [List.append_nil] at hi
    obtain ⟨k, _, _, heq, hk, -⟩ | ⟨k, heq | heq, -⟩ := hinside hi <;> cases heq
    exact absurd hk (Nat.not_succ_le_self n)

/-- What goes on within the cells from the second one on goes on within the chain. -/
theorem encloses_outer {c next : LayoutCell} {rest : List LayoutCell} {n k : Nat} (hlt : n < k)
    (h : Instr.Encloses k (storeCells (n + 1) (next :: rest))) :
    Instr.Encloses k (storeCells n (c :: next :: rest)) := by
  have hbegin : ∀ i ∈ [Instr.beginCell (n + 1)], k + 1 ∉ i.cells := by
    rw [List.forall_mem_singleton, Instr.cells, List.mem_singleton]
    omega
  have hend : ∀ i ∈ [Instr.endCell n (n + 1)], k + 1 ∉ i.cells := by
    rw [List.forall_mem_singleton, Instr.cells, List.mem_pair]
    omega
  have hstores := c.not_mem_cells_of_stores (Nat.lt_succ_of_lt hlt)
  exact ((h.prepend hbegin).prepend hstores).append hend (by simp)

/-- Each cell but the first one is begun and ended within the one before it. -/
theorem encloses_storeCells (rest : List LayoutCell) : ∀ (c : LayoutCell) (n k : Nat), n ≤ k →
    k < n + rest.length → Instr.Encloses k (storeCells n (c :: rest)) := by
  induction rest with
  | nil => exact fun c n k hle hlt => absurd hlt (Nat.not_lt.2 hle)
  | cons next rest ih =>
    intro c n k hle hlt
    rw [List.length_cons] at hlt
    rcases Nat.eq_or_lt_of_le hle with rfl | hlt'
    · exact encloses_second c next rest n
    · exact encloses_outer hlt' (ih next (n + 1) k hlt' (by omega))

/-- The second cell is opened between the fields of the first one and the rest. -/
theorem opens_second (c next : LayoutCell) (rest : List LayoutCell) (n : Nat) :
    Instr.Opens n (loadCells n (c :: next :: rest)) := by
  have hafter {i : Instr} (hi : i ∈ loadCells (n + 1) (next :: rest)) :=
    mem_loadCells next rest (n + 1) hi
  refine ⟨c.loads n, loadCells (n + 1) (next :: rest), rfl,
    c.not_mem_cells_of_loads (Nat.lt_succ_self n), fun i hi => ?_, fun parent hi => ?_⟩
  · obtain ⟨k, field, op, rfl, hk, -⟩ | ⟨k, rfl, hk, -⟩ := hafter hi <;>
      simp only [Instr.cells, List.mem_singleton, List.mem_pair] <;> omega
  · obtain ⟨_, _, _, heq, -⟩ | ⟨k, heq, hk, -⟩ := hafter hi <;> cases heq
    exact absurd hk (Nat.not_succ_le_self n)

/-- Each cell but the first one is opened behind the one before it. -/
theorem opens_loadCells (rest : List LayoutCell) : ∀ (c : LayoutCell) (n k : Nat), n ≤ k →
    k < n + rest.length → Instr.Opens k (loadCells n (c :: rest)) := by
  induction rest with
  | nil => exact fun c n k hle hlt => absurd hlt (Nat.not_lt.2 hle)
  | cons next rest ih =>
    intro c n k hle hlt
    rw [List.length_cons] at hlt
    rcases Nat.eq_or_lt_of_le hle with rfl | hlt'
    · exact opens_second c next rest n
    · have hopen : ∀ i ∈ [Instr.openCell n (n + 1)], k + 1 ∉ i.cells := by
        rw [List.forall_mem_singleton, Instr.cells, List.mem_pair]
        omega
      have hrest := ih next (n + 1) k hlt' (by omega)
      exact (hrest.prepend hopen).prepend (c.not_mem_cells_of_loads (Nat.lt_succ_of_lt hlt'))

/-! ## Contents of programs -/

/-- The cells are started one after the other, and ended in the reverse order behind all fields. -/
theorem storeCells_eq (rest : List LayoutCell) : ∀ (c : LayoutCell) (n : Nat),
    storeCells n (c :: rest) = c.stores n
      ++ (rest.zipIdx (n + 1)).flatMap (fun (c, k) => .beginCell k :: c.stores k)
      ++ (List.range' n rest.length).reverse.map fun k => .endCell k (k + 1) := by
  induction rest with
  | nil => exact fun c n => by simp [storeCells, LayoutCell.stores]
  | cons next rest ih =>
    intro c n
    rw [storeCells_cons, ih next (n + 1), List.zipIdx_cons, List.flatMap_cons, List.length_cons,
      List.range'_succ, List.reverse_cons, List.map_append]
    simp

/-- The cells are opened one after the other. -/
theorem loadCells_eq (rest : List LayoutCell) : ∀ (c : LayoutCell) (n : Nat),
    loadCells n (c :: rest) = c.loads n
      ++ (rest.zipIdx (n + 1)).flatMap fun (c, k) => .openCell (k - 1) k :: c.loads k := by
  induction rest with
  | nil => exact fun c n => by simp [loadCells, LayoutCell.loads]
  | cons next rest ih =>
    intro c n
    rw [loadCells_cons, ih next (n + 1), List.zipIdx_cons, List.flatMap_cons]
    simp

section
variable {α : Type} (f : Instr → Option α)

theorem filterMap_storeCells (hend : ∀ k, f (.endCell k (k + 1)) = none) (c : LayoutCell)
    (rest : List LayoutCell) (n : Nat) :
    (storeCells n (c :: rest)).filterMap f = (c.stores n).filterMap f
      ++ (rest.zipIdx (n + 1)).flatMap fun (c, k) => (.beginCell k :: c.stores k).filterMap f := by
  have hends : ((List.range' n rest.length).reverse.map
      fun k => Instr.endCell k (k + 1)).filterMap f = [] := by
    rw [List.filterMap_map, List.filterMap_eq_nil_iff]
    exact fun k _ => hend k
  rw [storeCells_eq, List.filterMap_append, List.filterMap_append, List.filterMap_flatMap, hends,
    List.append_nil]

theorem filterMap_loadCells (c : LayoutCell) (rest : List LayoutCell) (n : Nat) :
    (loadCells n (c :: rest)).filterMap f = (c.loads n).filterMap f
      ++ (rest.zipIdx (n + 1)).flatMap fun (c, k) =>
        (.openCell (k - 1) k :: c.loads k).filterMap f := by
  rw [loadCells_eq, List.filterMap_append, List.filterMap_flatMap]

end

/-- The fields of cells, each with the number of its cell and its operation. -/
def fieldPlaces (cells : List LayoutCell) (n : Nat) : List (Nat × String × FieldOp) :=
  (cells.zipIdx n).flatMap fun (c, k) => c.placements.map fun p => (k, p.field, p.op)

theorem stored_storeCells (c : LayoutCell) (rest : List LayoutCell) (n : Nat) :
    (storeCells n (c :: rest)).filterMap Instr.stored? = fieldPlaces (c :: rest) n := by
  have hstores (c : LayoutCell) (k : Nat) : (c.stores k).filterMap Instr.stored? =
      c.placements.map fun p => (k, p.field, p.op) := by
    rw [LayoutCell.stores, List.filterMap_map]
    exact congrFun List.filterMap_eq_map' c.placements
  have hbegin (k : Nat) : Instr.stored? (.beginCell k) = none := rfl
  rw [filterMap_storeCells _ fun _ => rfl]
  simp only [List.filterMap_cons_none (hbegin _), hstores]
  rfl

theorem loaded_loadCells (c : LayoutCell) (rest : List LayoutCell) (n : Nat) :
    (loadCells n (c :: rest)).filterMap Instr.loaded? = fieldPlaces (c :: rest) n := by
  have hloads (c : LayoutCell) (k : Nat) : (c.loads k).filterMap Instr.loaded? =
      c.placements.map fun p => (k, p.field, p.op) := by
    rw [LayoutCell.loads, List.filterMap_map]
    exact congrFun List.filterMap_eq_map' c.placements
  have hopen (k : Nat) : Instr.loaded? (.openCell (k - 1) k) = none := rfl
  rw [filterMap_loadCells]
  simp only [List.filterMap_cons_none (hopen _), hloads]
  rfl

theorem started_storeCells (c : LayoutCell) (rest : List LayoutCell) (n : Nat) :
    (storeCells n (c :: rest)).filterMap Program.startedCell? =
      List.range' (n + 1) rest.length := by
  have hstores (c : LayoutCell) (k : Nat) : (c.stores k).filterMap Program.startedCell? = [] := by
    simp [LayoutCell.stores, Program.startedCell?]
  have hbegin (k : Nat) : Program.startedCell? (.beginCell k) = some k := rfl
  rw [filterMap_storeCells _ fun _ => rfl, ← List.zipIdx_map_snd (n + 1) rest, List.map_eq_flatMap]
  simp only [List.filterMap_cons_some (hbegin _), hstores, List.nil_append]

theorem started_loadCells (c : LayoutCell) (rest : List LayoutCell) (n : Nat) :
    (loadCells n (c :: rest)).filterMap Program.startedCell? =
      List.range' (n + 1) rest.length := by
  have hloads (c : LayoutCell) (k : Nat) : (c.loads k).filterMap Program.startedCell? = [] := by
    simp [LayoutCell.loads, Program.startedCell?]
  have hopen (k : Nat) : Program.startedCell? (.openCell (k - 1) k) = some k := rfl
  rw [filterMap_loadCells, ← List.zipIdx_map_snd (n + 1) rest, List.map_eq_flatMap]
  simp only [List.filterMap_cons_some (hopen _), hloads, List.nil_append]

/-- Programs that start cells up to a number have that many cells besides the first one. -/
theorem cellCount_eq {p : Program} {m : Nat}
    (h : p.instrs.filterMap Program.startedCell? = List.range' 1 m) : p.cellCount = m + 1 := by
  rw [Program.cellCount, h]
  cases m with
  | zero => rfl
  | succ m =>
    have hmax : (List.range' 1 (m + 1)).max? = some (m + 1) := by
      refine List.max?_eq_some_iff.2 ⟨List.mem_range'_1.2 (by omega), fun k hk => ?_⟩
      have := List.mem_range'_1.1 hk
      omega
    rw [hmax]

/-- A cell more takes two instructions to write and one to read. -/
theorem length_storeCells (c : LayoutCell) (rest : List LayoutCell) (n : Nat) :
    (storeCells n (c :: rest)).length = (loadCells n (c :: rest)).length + rest.length := by
  have hlength (c : LayoutCell) (k : Nat) : (c.stores k).length = (c.loads k).length := by
    simp [LayoutCell.stores, LayoutCell.loads]
  rw [storeCells_eq, loadCells_eq]
  simp [hlength, add_assoc]

/-- The instructions of a chain name no cell behind its last one. -/
theorem cells_storeCells {c : LayoutCell} {rest : List LayoutCell} {i : Instr}
    (hi : i ∈ storeCells 0 (c :: rest)) : ∀ k ∈ i.cells, k ≤ rest.length := by
  intro k hk
  obtain ⟨k', _, _, rfl, -, hlt⟩ | ⟨k', rfl | rfl, -, hlt⟩ := mem_storeCells c rest 0 hi <;>
    simp only [Instr.cells, List.mem_singleton, List.mem_pair] at hk <;> omega

theorem cells_loadCells {c : LayoutCell} {rest : List LayoutCell} {i : Instr}
    (hi : i ∈ loadCells 0 (c :: rest)) : ∀ k ∈ i.cells, k ≤ rest.length := by
  intro k hk
  obtain ⟨k', _, _, rfl, -, hlt⟩ | ⟨k', rfl, -, hlt⟩ := mem_loadCells c rest 0 hi <;>
    simp only [Instr.cells, List.mem_singleton, List.mem_pair] at hk <;> omega

/-! ## Programs -/

/-- The instructions write or check a header of the first cell, or are none. -/
def OfHeader (header : Option UInt32) (front : List Instr) : Prop :=
  front = [] ∨ ∃ h, header = some h ∧ (front = [.storeHeader 0 h] ∨ front = [.checkHeader 0 h])

namespace OfHeader

variable {header : Option UInt32} {front : List Instr} {α : Type}

theorem cells (h : OfHeader header front) : ∀ i ∈ front, i.cells = [0] := by
  obtain rfl | ⟨h, -, rfl | rfl⟩ := h <;> simp [Instr.cells]

theorem filterMap (h : OfHeader header front) {f : Instr → Option α}
    (hstore : ∀ value, f (.storeHeader 0 value) = none)
    (hcheck : ∀ value, f (.checkHeader 0 value) = none) : front.filterMap f = [] := by
  obtain rfl | ⟨h, -, rfl | rfl⟩ := h <;> simp [hstore, hcheck]

theorem cells_lt (h : OfHeader header front) {is : List Instr} {n : Nat}
    (his : ∀ i ∈ is, ∀ k ∈ i.cells, k < n + 1) : ∀ i ∈ front ++ is, ∀ k ∈ i.cells, k < n + 1 := by
  refine List.forall_mem_append.2 ⟨fun i hi k hk => ?_, his⟩
  rw [h.cells i hi, List.mem_singleton] at hk
  exact hk ▸ Nat.succ_pos n

theorem length_le (h : OfHeader header front) : front.length ≤ header.toList.length := by
  obtain rfl | ⟨h, rfl, rfl | rfl⟩ := h <;> simp

end OfHeader

/-- A serializer writes the header and then the cells. -/
theorem instrs_serializer (l : Layout) : l.serializer.instrs =
    (l.header.map (Instr.storeHeader 0)).toList ++ storeCells 0 l.cells := rfl

theorem ofHeader_serializer (l : Layout) :
    OfHeader l.header (l.header.map (Instr.storeHeader 0)).toList := by
  cases l.header with
  | none => exact .inl rfl
  | some header => exact .inr ⟨header, rfl, .inl rfl⟩

/-- A parser that leaves out no fields checks the header, if it does, and then reads the cells. -/
theorem exists_parser_instrs {l : Layout} (homitted : l.omitted = []) (mode : ParserMode) :
    ∃ front, OfHeader l.header front ∧ (l.parser mode).instrs = front ++ loadCells 0 l.cells := by
  refine ⟨(if mode = .noHeader then none else l.header.map (Instr.checkHeader 0)).toList, ?_, ?_⟩
  · by_cases hmode : mode = .noHeader
    · rw [if_pos hmode]
      exact .inl rfl
    · rw [if_neg hmode]
      cases l.header with
      | none => exact .inl rfl
      | some header => exact .inr ⟨header, rfl, .inr rfl⟩
  · rw [parser, homitted, List.map_nil, List.append_nil]

/--
The programs of a layout go through the same fields in the same cells. Each cell but the first one
is begun and ended within the one before it, and opened behind it.
-/
structure Aligned (l : Layout) : Prop where
  /-- The fields are written in the order of the placements, cell by cell. -/
  stored : l.serializer.instrs.filterMap Instr.stored? =
    l.numberedPlacements.map fun (k, p) => (k, p.field, p.op)
  /-- They are read in the same order. -/
  loaded : ∀ mode, (l.parser mode).instrs.filterMap Instr.loaded? =
    l.serializer.instrs.filterMap Instr.stored?
  /-- Cells are begun one after the other, and ended in the reverse order behind all fields. -/
  nested : ∃ first rest, l.cells = first :: rest
    ∧ l.serializer.instrs = (l.header.map (Instr.storeHeader 0)).toList ++ first.stores 0
      ++ (rest.zipIdx 1).flatMap (fun (c, k) => .beginCell k :: c.stores k)
      ++ (List.range rest.length).reverse.map fun k => .endCell k (k + 1)
  encloses : ∀ k, k + 1 < l.cells.length → Instr.Encloses k l.serializer.instrs
  opens : ∀ mode k, k + 1 < l.cells.length → Instr.Opens k (l.parser mode).instrs
  /-- There are no other cells. -/
  within : (∀ i ∈ l.serializer.instrs, ∀ k ∈ i.cells, k < l.cells.length)
    ∧ ∀ mode, ∀ i ∈ (l.parser mode).instrs, ∀ k ∈ i.cells, k < l.cells.length
  cellCount : l.serializer.cellCount = l.cells.length
    ∧ ∀ mode, (l.parser mode).cellCount = l.cells.length
  shorter : ∀ mode, (l.parser mode).instrs.length ≤ l.serializer.instrs.length

/-- The programs of a layout of cells for all fields are aligned. -/
theorem aligned {l : Layout} {c : LayoutCell} {rest : List LayoutCell}
    (hcells : l.cells = c :: rest) (homitted : l.omitted = []) : l.Aligned := by
  have hserializer := l.instrs_serializer
  have hheader := l.ofHeader_serializer
  have hparser := exists_parser_instrs homitted
  rw [hcells] at hserializer hparser
  have hlength : l.cells.length = rest.length + 1 := by rw [hcells, List.length_cons]
  have hstored : l.serializer.instrs.filterMap Instr.stored? = fieldPlaces (c :: rest) 0 := by
    rw [hserializer, List.filterMap_append, hheader.filterMap (fun _ => rfl) fun _ => rfl,
      stored_storeCells, List.nil_append]
  refine
    { stored := ?stored
      loaded := fun mode => ?loaded
      nested := ⟨c, rest, hcells, ?nested⟩
      encloses := fun k hk => ?encloses
      opens := fun mode k hk => ?opens
      within := ⟨?writes, fun mode => ?reads⟩
      cellCount := ⟨?written, fun mode => ?read⟩
      shorter := fun mode => ?shorter }
  case stored =>
    rw [hstored, numberedPlacements, hcells, List.map_flatMap, fieldPlaces]
    simp only [List.map_map]
    rfl
  case loaded =>
    obtain ⟨front, hfront, hinstrs⟩ := hparser mode
    rw [hinstrs, hstored, List.filterMap_append, hfront.filterMap (fun _ => rfl) fun _ => rfl,
      loaded_loadCells, List.nil_append]
  case nested =>
    rw [hserializer, storeCells_eq, List.range_eq_range', ← List.append_assoc, ← List.append_assoc]
  case encloses =>
    rw [hserializer]
    refine (encloses_storeCells rest c 0 k (Nat.zero_le k) (by omega)).prepend fun i hi => ?_
    rw [hheader.cells i hi]
    simp
  case opens =>
    obtain ⟨front, hfront, hinstrs⟩ := hparser mode
    rw [hinstrs]
    refine (opens_loadCells rest c 0 k (Nat.zero_le k) (by omega)).prepend fun i hi => ?_
    rw [hfront.cells i hi]
    simp
  case writes =>
    rw [hserializer, hlength]
    exact hheader.cells_lt fun i hi k hk => Nat.lt_succ_of_le (cells_storeCells hi k hk)
  case reads =>
    obtain ⟨front, hfront, hinstrs⟩ := hparser mode
    rw [hinstrs, hlength]
    exact hfront.cells_lt fun i hi k hk => Nat.lt_succ_of_le (cells_loadCells hi k hk)
  case written =>
    rw [cellCount_eq (m := rest.length), hlength]
    rw [hserializer, List.filterMap_append, hheader.filterMap (fun _ => rfl) fun _ => rfl,
      started_storeCells, List.nil_append]
  case read =>
    obtain ⟨front, hfront, hinstrs⟩ := hparser mode
    rw [cellCount_eq (m := rest.length), hlength]
    rw [hinstrs, List.filterMap_append, hfront.filterMap (fun _ => rfl) fun _ => rfl,
      started_loadCells, List.nil_append]
  case shorter =>
    obtain ⟨front, hfront, hinstrs⟩ := hparser mode
    have hle := hfront.length_le
    have hsame : (l.header.map (Instr.storeHeader 0)).toList.length = l.header.toList.length := by
      cases l.header <;> rfl
    rw [hinstrs, hserializer, List.length_append, List.length_append, length_storeCells]
    omega

end Layout

namespace LayoutCache

variable {s : TypeStore}

/-- The programs of a layout are aligned, whatever was requested before. -/
theorem request_aligned {requested : List LayoutId} {id : LayoutId} {l : Layout}
    {c : LayoutCache} (h : (request s id).run (after s requested) = (.ok l, c))
    (hid : ∀ name, id ≠ .bounced name) : l.Aligned := by
  obtain ⟨-, hc, hl⟩ := (keeps_request s id (valid_after s requested)).ok_of_run h
  obtain ⟨t, -, ⟨_, _, -, hl⟩ | ⟨name, _, hname, -⟩⟩ := hc.filled_or_bounced hl
  · obtain ⟨first, rest, hcells, -⟩ := hl.fits
    exact Layout.aligned hcells hl.omitted_eq
  · exact absurd hname (hid name)

/-- A message in several cells, with records in place and behind references. -/
theorem request_aligned_sample :
    ∃ l c, (request sampleStore (.full "Pay")).run
        (after sampleStore [.full "Nobody", .full "Node"]) = (.ok l, c)
      ∧ (∀ name, LayoutId.full "Pay" ≠ .bounced name) ∧ 2 ≤ l.cells.length ∧ l.Aligned := by
  have hok : ((request sampleStore (.full "Pay")).run
      (after sampleStore [.full "Nobody", .full "Node"])).1.toOption.any
        (fun l => 2 ≤ l.cells.length) = true := by decide +kernel
  rcases h : (request sampleStore (.full "Pay")).run
    (after sampleStore [.full "Nobody", .full "Node"]) with ⟨e | l, c⟩
  · rw [h] at hok
    cases hok
  · rw [h] at hok
    exact ⟨l, c, rfl, nofun, of_decide_eq_true hok, request_aligned h nofun⟩

end LayoutCache
end CellPack
