import Mathlib
import CellPack.Proofs.Layouts
import CellPack.Proofs.Transparency
/-!
# Fields that no cell can hold

Fields are refused one by one: a layout fails with the first one whose check fails (`Field.check`),
and the cells before it do not matter (`result_placeFields`). The check of a size refuses a type with
too many bits for a cell, where each optional layer but one counts for a bit, even if it is behind a
reference (`FieldType.TooWide`). So an optional value may be refused that would fit; for all others
the refusal says that the field cannot be laid out (`LayoutCache.request_tooLarge_iff`).
-/

namespace CellPack

open Step

/-! ## Widths -/

namespace FieldType

/-- The number of optional layers. -/
def layers : FieldType → Nat
  | optional inner => inner.layers + 1
  | _ => 0

/-- The bits that a value takes in place, for a type that is neither optional nor a map. -/
def plainBits : FieldType → Nat
  | int format => format.maxBits
  | bool => 1
  | address => addressBits
  | bits n => n
  | _ => 0

/-- Below the layers is no map, and its bits and one for each layer but one are too many for a cell. -/
def TooWide (type : FieldType) : Prop :=
  (∀ key value, type.withoutOptional ≠ .map key value)
    ∧ maxCellBits < type.withoutOptional.plainBits + (type.layers - 1)

end FieldType

/-- The sizes of an operation for some optional layers over so many bits. -/
structure Widths (width layers : Nat) (op : FieldOp) (size payload : CellSize) : Prop where
  notDict : op ≠ .dict
  ofRef : ∀ kind, op = .ref kind → width + layers = 0
  sizeRefs : size.refs ≤ 1
  payloadRefs : payload.refs ≤ 1
  /-- All in place; or the last layer is one bit too many, and behind a reference; or too wide. -/
  bits : (width + layers ≤ maxCellBits ∧ size.bits = width + layers ∧ payload.bits = width + layers)
    ∨ (0 < layers ∧ width + layers = maxCellBits + 1 ∧ size.bits = 1 ∧ payload.bits = maxCellBits)
    ∨ (maxCellBits < width + (layers - 1) ∧ maxCellBits < payload.bits)

section
variable {width layers : Nat} {op : FieldOp} {size payload : CellSize}

theorem Widths.tooWide (h : Widths width layers op size payload) :
    maxCellBits < payload.bits ↔ maxCellBits < width + (layers - 1) := by
  rcases h.bits with ⟨hle, -, hbits⟩ | ⟨hpos, heq, -, hbits⟩ | ⟨hwidth, hbits⟩ <;> omega

/-- One bit and one reference, for a reference or a record under one layer. -/
theorem widths_bitAndRef (op : FieldOp) (boxed : Bool) :
    Widths 0 1 (.optional op boxed) Lowered.bitAndRef Lowered.bitAndRef where
  notDict := by simp
  ofRef := by simp
  sizeRefs := le_refl 1
  payloadRefs := le_refl 1
  bits := .inl ⟨by decide, rfl, rfl⟩

/-- What an operation that is not a map or a reference becomes under one more layer. -/
theorem Lowered.optional_fixed (hdict : op ≠ .dict) (href : ∀ kind, op ≠ .ref kind) :
    (fixed op size payload).optional =
      if ((⟨1, 0⟩ : CellSize) + size).fitsCell then
        fixed (.optional op false) (⟨1, 0⟩ + size) (⟨1, 0⟩ + payload)
      else fixed (.optional op true) bitAndRef payload := by
  unfold optional
  split
  · next h => cases h; exact absurd rfl hdict
  · next kind _ _ h => cases h; exact absurd rfl (href kind)
  · next h =>
    cases h
    rfl
  · next h => cases h

/-- A lowered type of some optional layers over so many bits. -/
def Lowered.Takes (width layers : Nat) : Lowered → Prop
  | fixed op size payload => Widths width layers op size payload
  | nested _ => width + layers = 0

theorem Lowered.takes_plain {refs : Nat} (hdict : op ≠ .dict)
    (href : ∀ kind, op = .ref kind → width = 0) (hrefs : refs ≤ 1) :
    (plain op ⟨width, refs⟩).Takes width 0 where
  notDict := hdict
  ofRef := href
  sizeRefs := hrefs
  payloadRefs := hrefs
  bits := by
    rcases Nat.lt_or_ge maxCellBits width with hlt | hle
    · exact .inr (.inr ⟨hlt, hlt⟩)
    · exact .inl ⟨hle, rfl, rfl⟩

/-- A layer in place, where it fits. -/
theorem Widths.layer_inPlace (h : Widths width layers op size payload)
    (hfits : ((⟨1, 0⟩ : CellSize) + size).fitsCell = true) :
    Widths width (layers + 1) (.optional op false) (⟨1, 0⟩ + size) (⟨1, 0⟩ + payload) := by
  obtain ⟨-, -, hsr, hpr, hbits⟩ := h
  rw [CellSize.fitsCell_iff, CellSize.add_eq] at hfits
  rw [CellSize.add_eq, CellSize.add_eq]
  simp only [maxCellBits] at hbits hfits
  refine ⟨by simp, by simp, ?_, ?_, ?_⟩ <;> dsimp only [maxCellBits]
  · omega
  · omega
  · rcases hbits with ⟨hle, hs, hp⟩ | ⟨hpos, heq, hs, hp⟩ | ⟨hwidth, hp⟩ <;> omega

/-- A layer behind a reference, where it does not fit in place. -/
theorem Widths.layer_boxed (h : Widths width layers op size payload)
    (hfits : ¬((⟨1, 0⟩ : CellSize) + size).fitsCell = true) :
    Widths width (layers + 1) (.optional op true) Lowered.bitAndRef payload := by
  obtain ⟨-, -, hsr, hpr, hbits⟩ := h
  rw [CellSize.fitsCell_iff, CellSize.add_eq] at hfits
  simp only [maxCellBits, usableCellRefs, maxCellRefs] at hbits hfits
  refine ⟨by simp, by simp, le_refl 1, hpr, ?_⟩
  dsimp only [maxCellBits, Lowered.bitAndRef]
  rcases hbits with ⟨hle, hs, hp⟩ | ⟨hpos, heq, hs, hp⟩ | ⟨hwidth, hp⟩ <;> omega

theorem Lowered.Takes.optional {lowered : Lowered} (h : lowered.Takes width layers) :
    lowered.optional.Takes width (layers + 1) := by
  cases lowered with
  | nested name =>
    obtain ⟨rfl, rfl⟩ : width = 0 ∧ layers = 0 := Nat.add_eq_zero_iff.1 h
    exact widths_bitAndRef _ _
  | fixed op size payload =>
    by_cases href : ∃ kind, op = .ref kind
    · obtain ⟨kind, rfl⟩ := href
      obtain ⟨rfl, rfl⟩ : width = 0 ∧ layers = 0 := Nat.add_eq_zero_iff.1 (h.ofRef kind rfl)
      exact widths_bitAndRef _ _
    · rw [optional_fixed h.notDict (fun kind hk => href ⟨kind, hk⟩)]
      split
      · next hfits => exact h.layer_inPlace hfits
      · next hfits => exact h.layer_boxed hfits

end

namespace FieldType

theorem lower_of_map {type key value : FieldType} (h : type.withoutOptional = .map key value) :
    type.lower = .plain .dict Lowered.bitAndRef := by
  induction type with
  | optional inner ih => rw [lower, ih h]; rfl
  | map => rfl
  | _ => cases h

theorem lower_takes {type : FieldType} (h : ∀ key value, type.withoutOptional ≠ .map key value) :
    type.lower.Takes type.withoutOptional.plainBits type.layers := by
  induction type with
  | optional inner ih => exact (ih h).optional
  | map key value => exact absurd rfl (h key value)
  | record name => rfl
  | int | bool | address | bits =>
    refine Lowered.takes_plain ?_ ?_ (Nat.zero_le 1)
    · exact nofun
    · exact nofun
  | cell | slice | builder | string =>
    refine Lowered.takes_plain ?_ (fun _ _ => rfl) (le_refl 1)
    exact nofun

/-- The size of the content is beyond a cell if the type is too wide, and only in its bits. -/
theorem payload_of_lower {type : FieldType} {op : FieldOp} {size payload : CellSize}
    (h : type.lower = .fixed op size payload) :
    payload.refs ≤ 1 ∧ (maxCellBits < payload.bits ↔ type.TooWide) := by
  by_cases hmap : ∀ key value, type.withoutOptional ≠ .map key value
  · have htakes := lower_takes hmap
    rw [h] at htakes
    exact ⟨htakes.payloadRefs, htakes.tooWide.trans (and_iff_right hmap).symm⟩
  · push Not at hmap
    obtain ⟨key, value, hmap⟩ := hmap
    rw [lower_of_map hmap] at h
    cases h
    refine ⟨le_refl 1, fun hlt => absurd hlt (by decide), fun hwide => absurd hmap (hwide.1 _ _)⟩

/-- What has room for its content has room itself. -/
theorem size_fitsCell {type : FieldType} {op : FieldOp} {size payload : CellSize}
    (h : type.lower = .fixed op size payload) (hfits : payload.fitsCell = true) :
    size.fitsCell = true := by
  cases type with
  | optional inner =>
    rw [lower] at h
    unfold Lowered.optional at h
    split at h
    · cases h; exact hfits
    · cases h; exact hfits
    · dsimp only at h
      split at h
      · next hinline => cases h; exact hinline
      · cases h; rfl
    · cases h; exact hfits
  | record name => cases h
  | _ => cases h; exact hfits

end FieldType

/-! ## Checks of fields -/

theorem discard_eq_error {ε α : Type} {x : Except ε α} {e : ε} (h : discard x = .error e) :
    x = .error e := by
  cases x <;> cases h
  rfl

/-- What keeps a field from being placed, whatever the cell before it is. -/
def Field.check (s : TypeStore) (nested : String → Except CompileError Layout) (typeName : String)
    (f : Field) : Except CompileError Unit := do
  checkResolved s typeName f
  match f.type.lower with
  | .fixed _ _ payload => checkPayload typeName f.name payload
  | .nested name => discard (nested name)

namespace Field

variable {s : TypeStore} {nested : String → Except CompileError Layout} {typeName : String}
  {f : Field}

/-- The record in a field, optional or not, is declared. -/
def Known (s : TypeStore) (f : Field) : Prop :=
  ∀ name, f.type.withoutOptional = .record name → s.contains name = true

/-- Why a field fails its check. -/
inductive Refused (s : TypeStore) (nested : String → Except CompileError Layout)
    (typeName : String) (f : Field) : CompileError → Prop where
  | unknown {name : String} (h : ¬f.Known s) :
    Refused s nested typeName f (.unresolvedType typeName f.name name)
  | tooWide (hknown : f.Known s) (h : f.type.TooWide) (bits : Nat) :
    Refused s nested typeName f (.fieldTooLarge typeName f.name bits)
  | nested {name : String} {e : CompileError} (htype : f.type = .record name)
    (h : nested name = .error e) : Refused s nested typeName f e

theorem checkResolved_eq_ok : checkResolved s typeName f = .ok () ↔ f.Known s := by
  unfold checkResolved Known
  split
  · next name htype =>
    rw [htype]
    by_cases h : s.contains name = true
    · rw [if_pos h]
      exact ⟨fun _ other hother => by cases hother; exact h, fun _ => rfl⟩
    · rw [if_neg h]
      exact ⟨nofun, fun hknown => absurd (hknown name rfl) h⟩
  · next hnone => exact ⟨fun _ name htype => absurd htype (hnone name), fun _ => rfl⟩

theorem refused_of_check {e : CompileError} (h : f.check s nested typeName = .error e) :
    Refused s nested typeName f e := by
  rcases bind_eq_error.1 h with h | ⟨⟨⟩, hresolved, h⟩
  · have hknown : ¬f.Known s := fun hknown => by
      rw [checkResolved_eq_ok.2 hknown] at h
      cases h
    unfold checkResolved at h
    split at h
    · split at h
      · cases h
      · cases h
        exact .unknown hknown
    · cases h
  · split at h
    · next op size payload hlower =>
      obtain ⟨hrefs, hwide⟩ := FieldType.payload_of_lower hlower
      unfold checkPayload at h
      split at h
      · next hbits =>
        cases h
        exact .tooWide (checkResolved_eq_ok.1 hresolved) (hwide.1 hbits) _
      · rw [if_neg (by simp only [usableCellRefs, maxCellRefs]; omega)] at h
        cases h
    · next name hlower =>
      exact .nested (FieldType.eq_record_of_lower hlower) (discard_eq_error h)

theorem check_eq_ok : f.check s nested typeName = .ok () ↔
    f.Known s ∧ ¬f.type.TooWide ∧ ∀ name, f.type = .record name → ∃ l, nested name = .ok l := by
  constructor
  · intro hcheck
    obtain ⟨⟨⟩, hresolved, h⟩ := bind_eq_ok.1 hcheck
    refine ⟨checkResolved_eq_ok.1 hresolved, ?_⟩
    split at h
    · next op size payload hlower =>
      have hfits := (CellSize.fitsCell_iff.1 (checkPayload_eq_ok.1 h)).1
      refine ⟨fun hwide => ?_, fun name htype => ?_⟩
      · have := (FieldType.payload_of_lower hlower).2.2 hwide
        omega
      · rw [htype] at hlower
        cases hlower
    · next name hlower =>
      obtain ⟨l, hl, -⟩ := bind_eq_ok.1 h
      have htype := FieldType.eq_record_of_lower hlower
      refine ⟨?_, fun other hother => ?_⟩
      · rw [htype]
        exact fun hwide => absurd hwide.2 (Nat.not_lt_zero _)
      · obtain rfl : name = other := by simpa [htype] using hother
        exact ⟨l, hl⟩
  · rintro ⟨hknown, hwide, hnested⟩
    cases hcheck : f.check s nested typeName with
    | ok u => rfl
    | error e =>
      rcases refused_of_check hcheck with hunknown | ⟨-, h, -⟩ | ⟨htype, h⟩
      · exact absurd hknown hunknown
      · exact absurd h hwide
      · obtain ⟨l, hl⟩ := hnested _ htype
        rw [hl] at h
        cases h

end Field

namespace LayoutCache

theorem run_lift {α : Type} (x : Except CompileError α) (c : LayoutCache) :
    (liftM x : LayoutM α).run c = (x, c) := by
  cases x <;> rfl

theorem fieldCost_fixed {request : String → LayoutM Layout} {current : LayoutCell} {type : FieldType}
    {op : FieldOp} {size payload : CellSize} (h : type.lower = .fixed op size payload) :
    fieldCost request current type = pure (op, size, payload) := by
  rw [fieldCost, h]

theorem fieldCost_nested {request : String → LayoutM Layout} {current : LayoutCell}
    {type : FieldType} {name : String} (h : type.lower = .nested name) :
    fieldCost request current type = do
      let (op, size) := nestedOp current name (← request name)
      return (op, size, size) := by
  rw [fieldCost, h]

/-- All records that can go in place fit an empty cell. -/
def InlineFits (nested : String → Except CompileError Layout) : Prop :=
  ∀ name l, nested name = .ok l → l.boxedWhenNested = false → l.firstCellSize.fitsCell = true

section
variable {s : TypeStore} {nested : String → Except CompileError Layout} {typeName : String}
  {current : LayoutCell} {c : LayoutCache} {f : Field} {rest : List Field}

/-- A field that fails its check is not placed. -/
theorem placeFields_refused {e : CompileError} (h : f.check s nested typeName = .error e) :
    (placeFields s (fun name => liftM (nested name)) typeName current (f :: rest)).run c =
      (.error e, c) := by
  rw [placeFields]
  rcases bind_eq_error.1 h with h | ⟨⟨⟩, hresolved, h⟩
  · exact run_bind_error (by rw [run_lift, h])
  rw [run_bind_ok (by rw [run_lift, hresolved])]
  split at h
  · next op size payload hlower =>
    rw [fieldCost_fixed hlower,
      run_bind_ok (show (pure (op, size, payload) : LayoutM _).run c = _ from rfl)]
    exact run_bind_error (by rw [run_lift, h])
  · next name hlower =>
    rw [fieldCost_nested hlower]
    exact run_bind_error (run_bind_error (by rw [run_lift, discard_eq_error h]))

/-- A field that passes its check has room in an empty cell. -/
theorem exists_cost_of_check (hfits : InlineFits nested) (h : f.check s nested typeName = .ok ()) :
    ∃ op size payload, (fieldCost (fun name => liftM (nested name)) current f.type).run c =
        (.ok (op, size, payload), c)
      ∧ payload.fitsCell = true ∧ size.fitsCell = true := by
  obtain ⟨⟨⟩, -, h⟩ := bind_eq_ok.1 h
  split at h
  · next op size payload hlower =>
    have hpayload := checkPayload_eq_ok.1 h
    rw [fieldCost_fixed hlower]
    exact ⟨op, size, payload, rfl, hpayload, FieldType.size_fitsCell hlower hpayload⟩
  · next name hlower =>
    obtain ⟨l, hl, -⟩ := bind_eq_ok.1 h
    obtain ⟨boxed, hop, hbox⟩ := nestedOp_eq current name l
    have hsize : (nestedOp current name l).2.fitsCell = true := by
      rw [hop]
      cases boxed with
      | true => rfl
      | false => exact hfits name l hl (by simpa using hbox)
    rw [fieldCost_nested hlower,
      run_bind_ok (show (liftM (nested name) : LayoutM _).run c = _ by rw [run_lift, hl])]
    exact ⟨_, _, _, rfl, hsize, hsize⟩

/-- So it is placed, in the current cell or in a fresh one. -/
theorem placeFields_checked (current : LayoutCell) (rest : List Field) (hfits : InlineFits nested)
    (h : f.check s nested typeName = .ok ()) :
    ∃ next, ((placeFields s (fun name => liftM (nested name)) typeName current (f :: rest)).run c).1.map
        (fun _ => ()) =
      ((placeFields s (fun name => liftM (nested name)) typeName next rest).run c).1.map
        (fun _ => ()) := by
  obtain ⟨⟨⟩, hresolved, -⟩ := bind_eq_ok.1 h
  obtain ⟨op, size, payload, hcost, hpayload, hsize⟩ := exists_cost_of_check hfits h
  rw [placeFields, run_bind_ok (by rw [run_lift, hresolved]), run_bind_ok hcost]
  dsimp only
  rw [run_bind_ok (by rw [run_lift, checkPayload_eq_ok.2 hpayload])]
  by_cases hfit : current.canFit size = true
  · rw [if_pos hfit]
    exact ⟨_, rfl⟩
  · rw [if_neg hfit, run_bind_ok (by rw [run_lift, checkPayload_eq_ok.2 hsize]), run_bind]
    refine ⟨(LayoutCell.reserving 0).place f.name op size, ?_⟩
    rcases (placeFields s (fun name => liftM (nested name)) typeName
      ((LayoutCell.reserving 0).place f.name op size) rest).run c with ⟨e | cells, c'⟩ <;> rfl

/-- Fields are placed unless one of them fails its check. -/
theorem result_placeFields (hfits : InlineFits nested) (fields : List Field) :
    ∀ current, ((placeFields s (fun name => liftM (nested name)) typeName current fields).run c).1.map
        (fun _ => ()) = forM fields (Field.check s nested typeName) := by
  induction fields with
  | nil => exact fun current => rfl
  | cons f rest ih =>
    intro current
    rw [List.forM_cons]
    cases h : f.check s nested typeName with
    | error e => rw [placeFields_refused h]; rfl
    | ok u =>
      obtain ⟨next, hnext⟩ := placeFields_checked current rest hfits h
      rw [hnext, ih next]
      rfl

end

end LayoutCache

/-! ## Checks of layouts -/

/-- The types below which the records in a layout are laid out. -/
def LayoutId.path : LayoutId → List String
  | full name | bounced name => [name]
  | init _ => []

namespace TypeStore

variable {s : TypeStore} {id : LayoutId} {t : RecordType} {path : List String} {name : String}

/-- What a record takes in place fits a cell. -/
theorem fits_of_layout {l : Layout} (h : s.layout (.full name) = .ok l)
    (hbox : l.boxedWhenNested = false) : l.firstCellSize.fitsCell = true := by
  have hrequest := (LayoutCache.keeps_request s (.full name) (LayoutCache.valid_empty s)).ok_of_result
    ((LayoutCache.fresh_request s _).trans h)
  obtain ⟨-, hvalid, hl⟩ := hrequest
  obtain ⟨t, -, hfilled⟩ := hvalid.holds hl
  obtain ⟨first, rest, hcells, hfirst, -⟩ := hfilled.fits
  obtain ⟨c, hc, -, hsize⟩ := Layout.single_of_not_boxed (by rw [hcells]; exact List.cons_ne_nil _ _) hbox
  obtain ⟨rfl, -⟩ := List.cons.inj (hcells.symm.trans hc)
  rw [hsize]
  exact hfirst.used_fits

/-- A layout below others is the layout of the store. -/
theorem layout_of_below {l : Layout} (h : s.layoutBelow path name = .ok l) :
    s.layout (.full name) = .ok l := layoutBelow_of_ok h fun _ _ => List.not_mem_nil

theorem layoutWith_checked {nested : String → Except CompileError Layout}
    (hfits : LayoutCache.InlineFits nested) (ht : s.get? id.typeName = some t)
    (hid : ∀ name, id ≠ .bounced name) :
    (s.layoutWith nested id).map (fun _ => ()) =
      forM (id.fieldsOf t) (Field.check s nested id.typeName) := by
  have hplaced : ((placeFields s (fun name => liftM (nested name)) id.typeName
      (.reserving (reservedBits id t.kind)) (id.fieldsOf t)).run {}).1.map (fun _ => ()) = _ :=
    LayoutCache.result_placeFields hfits _ _
  rw [← hplaced]
  unfold layoutWith computeLayout
  rw [ht]
  cases id with
  | bounced name => exact absurd rfl (hid name)
  | full name | init name =>
    dsimp only [layoutFields, LayoutId.fieldsOf, LayoutId.typeName]
    rw [run_bind]
    rcases (placeFields s (fun name => liftM (nested name)) name _ _).run {} with ⟨e | cells, c⟩ <;> rfl

/-- What records take in place fits a cell, below all types. -/
theorem fits_of_below (s : TypeStore) (path : List String) :
    LayoutCache.InlineFits (s.layoutBelow path) := fun _ _ h => fits_of_layout (layout_of_below h)

theorem layoutBelow_checked (ht : s.get? name = some t) (hpath : name ∉ path) :
    (s.layoutBelow path name).map (fun _ => ()) =
      forM t.fields (Field.check s (s.layoutBelow (path ++ [name])) name) := by
  rw [layoutBelow_of_not_mem hpath]
  exact layoutWith_checked (s.fits_of_below _) ht nofun

/-- A layout is found unless a field fails its check. -/
theorem layout_checked (ht : s.get? id.typeName = some t) :
    (s.layout id).map (fun _ => ()) =
      forM (id.fieldsOf t) (Field.check s (s.layoutBelow id.path) id.typeName) := by
  cases id with
  | full name => exact layoutBelow_checked ht List.not_mem_nil
  | init name => exact layoutWith_checked (s.fits_of_below []) ht nofun
  | bounced name =>
    have hfull : (s.layoutBelow [] name).map (fun _ => ()) = _ :=
      layoutBelow_checked ht List.not_mem_nil
    refine Eq.trans ?_ hfull
    change (s.layoutWith (s.layoutBelow []) (.bounced name)).map _ = _
    unfold layoutWith computeLayout
    rw [ht]
    dsimp only
    rw [run_bind, LayoutCache.run_lift]
    rcases s.layoutBelow [] name with e | l <;> rfl

/-- The types above a layout do not matter to the records in it. -/
theorem exists_layoutBelow_iff (ht : s.get? id.typeName = some t)
    (hname : RecordIn (id.fieldsOf t) name) :
    (∃ l, s.layoutBelow id.path name = .ok l) ↔ ∃ l, s.layout (.full name) = .ok l := by
  refine ⟨fun ⟨l, hl⟩ => ⟨l, layout_of_below hl⟩, fun ⟨l, hl⟩ => ⟨l, ?_⟩⟩
  cases id with
  | init other => exact hl
  | full other | bounced other =>
    refine layoutBelow_of_layout ?_ hl
    exact List.isChain_pair.2 ⟨t, ht, hname⟩

/-- So they do not matter to the checks of its fields. -/
theorem check_below_iff {f : Field} (ht : s.get? id.typeName = some t) (hf : f ∈ id.fieldsOf t) :
    f.check s (s.layoutBelow id.path) id.typeName = .ok () ↔
      f.check s (fun name => s.layout (.full name)) id.typeName = .ok () := by
  rw [Field.check_eq_ok, Field.check_eq_ok]
  refine and_congr_right fun _ => and_congr_right fun _ => forall_congr' fun name => ?_
  exact imp_congr_right fun htype => exists_layoutBelow_iff ht ⟨f, hf, htype⟩

end TypeStore

namespace LayoutCache

variable {s : TypeStore} {id : LayoutId} {t : RecordType} {fields : List Field}

/-- Fields can be placed one behind the other, from the reserved bits of a layout on. -/
def CanPlace (s : TypeStore) (id : LayoutId) (t : RecordType) (fields : List Field) : Prop :=
  ((placeFields s (fun name => request s (.full name)) id.typeName
    (.reserving (reservedBits id t.kind)) fields).run {}).1.isOk = true

theorem isOk_iff {ε α : Type} {x : Except ε α} : x.isOk = true ↔ x.map (fun _ => ()) = .ok () := by
  cases x with
  | error e => exact ⟨nofun, nofun⟩
  | ok a => exact ⟨fun _ => rfl, fun _ => rfl⟩

theorem canPlace_iff : CanPlace s id t fields ↔
    ∀ f ∈ fields, f.check s (fun name => s.layout (.full name)) id.typeName = .ok () := by
  have halike : Alike (fun c _ => Ahead s (fun _ => True) {} c)
      (placeFields s (fun name => request s (.full name)) id.typeName
        (.reserving (reservedBits id t.kind)) fields)
      (placeFields s (fun name => liftM (s.layout (.full name))) id.typeName
        (.reserving (reservedBits id t.kind)) fields) := by
    refine alike_placeFields _ _ (fun _ _ _ _ => rfl) (fun f _ name _ c d hc => ?_) _
    have hanswers : Answers s (fun _ => True) (request s (.full name)) c (s.layout (.full name)) :=
      answers_request (fun _ _ _ _ => trivial) (.refl hc.valid hc.sound) trivial hc.inProgress
    obtain ⟨hresult, hahead⟩ := hanswers
    rw [run_lift, hresult]
    exact ⟨rfl, hc.trans hahead⟩
  unfold CanPlace
  rw [(halike {} {} (ahead_empty s _)).1, isOk_iff,
    result_placeFields fun _ _ => TypeStore.fits_of_layout, forM_eq_ok]

/-- A field can be placed behind others by what it is alone. -/
theorem canPlace_concat_iff {f : Field} (h : CanPlace s id t fields) :
    CanPlace s id t (fields ++ [f]) ↔
      f.check s (fun name => s.layout (.full name)) id.typeName = .ok () := by
  rw [canPlace_iff] at h ⊢
  simp only [List.forall_mem_append, List.forall_mem_singleton]
  exact and_iff_right h

/-- Behind fields that can be placed, a layout is found or not by the fields from the next one on. -/
theorem layout_behind {before rest : List Field} {f : Field} (ht : s.get? id.typeName = some t)
    (hfields : id.fieldsOf t = before ++ f :: rest) (hbefore : CanPlace s id t before) :
    (s.layout id).map (fun _ => ()) =
      (do f.check s (s.layoutBelow id.path) id.typeName
          forM rest (Field.check s (s.layoutBelow id.path) id.typeName)) := by
  have hchecked : forM before (Field.check s (s.layoutBelow id.path) id.typeName) = .ok () := by
    refine forM_eq_ok.2 fun g hg => ?_
    rw [TypeStore.check_below_iff ht (hfields ▸ List.mem_append_left _ hg)]
    exact canPlace_iff.1 hbefore g hg
  rw [TypeStore.layout_checked ht, hfields, List.forM_append, hchecked, List.forM_cons]
  rfl

/-- A request fails at a field behind fields that can be placed, and not in a record in that field. -/
structure StopsAt (s : TypeStore) (requested : List LayoutId) (id : LayoutId) (t : RecordType)
    (before : List Field) (f : Field) (e : CompileError) : Prop where
  result : ((request s id).run (after s requested)).1 = .error e
  placed : CanPlace s id t before
  stops : ¬CanPlace s id t (before ++ [f])
  own : ∀ name, f.type = .record name → ∃ l, ((request s (.full name)).run {}).1 = .ok l

/--
A request fails at a field because of its bits exactly if the type of the field is too wide, and its
record, if it has one, is declared. A field that is neither too wide nor without a layout of its
record can be placed.
-/
theorem request_tooLarge_iff {requested : List LayoutId} {before rest : List Field} {f : Field}
    (ht : s.get? id.typeName = some t) (hfields : id.fieldsOf t = before ++ f :: rest)
    (hbefore : CanPlace s id t before) :
    ((∃ bits, StopsAt s requested id t before f (.fieldTooLarge id.typeName f.name bits)) ↔
        f.type.TooWide ∧ f.Known s)
      ∧ (CanPlace s id t (before ++ [f]) ↔ f.Known s ∧ ¬f.type.TooWide
        ∧ ∀ name, f.type = .record name → ∃ l, ((request s (.full name)).run {}).1 = .ok l) := by
  have hlayout (name : String) : ((request s (.full name)).run {}).1 = s.layout (.full name) :=
    fresh_request s _
  have hresult : ((request s id).run (after s requested)).1 = s.layout id :=
    (request_transparent s requested id).1.trans (fresh_request s id)
  have hchecks := layout_behind ht hfields hbefore
  have hf : f ∈ id.fieldsOf t := hfields ▸ List.mem_append_right _ List.mem_cons_self
  have hconcat := (canPlace_concat_iff hbefore).trans (TypeStore.check_below_iff ht hf).symm
  refine ⟨⟨fun ⟨bits, hstop⟩ => ?_, fun ⟨hwide, hknown⟩ => ?_⟩, ?_⟩
  · rw [← hresult, hstop.result] at hchecks
    rcases bind_eq_error.1 hchecks.symm with hcheck | ⟨⟨⟩, hcheck, -⟩
    · rcases Field.refused_of_check hcheck with _ | ⟨hknown, hwide, -⟩ | ⟨htype, hnested⟩
      · exact ⟨hwide, hknown⟩
      -- the record in the field has a layout, so it is not what fails
      · obtain ⟨l, hl⟩ := hstop.own _ htype
        rw [hlayout] at hl
        obtain ⟨l', hl'⟩ := (TypeStore.exists_layoutBelow_iff ht ⟨f, hf, htype⟩).2 ⟨l, hl⟩
        rw [hl'] at hnested
        cases hnested
    · exact absurd (hconcat.2 hcheck) hstop.stops
  · have hrecord {name : String} (htype : f.type = .record name) : False := by
      rw [htype] at hwide
      exact Nat.not_lt_zero _ hwide.2
    cases hcheck : f.check s (s.layoutBelow id.path) id.typeName with
    | ok u => exact absurd hwide (Field.check_eq_ok.1 hcheck).2.1
    | error e =>
      rw [hcheck] at hchecks hconcat
      rcases Field.refused_of_check hcheck with hunknown | ⟨-, -, bits⟩ | ⟨htype, -⟩
      · exact absurd hknown hunknown
      · refine ⟨bits, hresult.trans (map_eq_error hchecks), hbefore, ?_, fun _ htype => ?_⟩
        · exact fun hplace => by cases hconcat.1 hplace
        · exact (hrecord htype).elim
      · exact (hrecord htype).elim
  · simp only [hlayout]
    exact (canPlace_concat_iff hbefore).trans Field.check_eq_ok

end LayoutCache

/-- A record in place, and an optional value that needs a cell of its own below a second layer. -/
def wideStore : TypeStore where
  types :=
    [{ name := "Point", kind := .struct
       fields := [{ name := "x", type := .int (.int 257) }, { name := "y", type := .bits 12 }] },
     { name := "Blob", kind := .struct
       fields :=
         [{ name := "at", type := .record "Point" },
           { name := "data", type := .optional (.optional (.bits 1023)) },
           { name := "open", type := .bool }] }]
  types_distinct := by decide

namespace LayoutCache

/-- Behind the record in place and a request before it, the optional value is refused. -/
theorem request_tooLarge_sample : ∃ t, wideStore.get? "Blob" = some t ∧ ∃ bits,
    StopsAt wideStore [.full "Point"] (.full "Blob") t [{ name := "at", type := .record "Point" }]
      { name := "data", type := .optional (.optional (.bits 1023)) }
      (.fieldTooLarge "Blob" "data" bits) := by
  have hbefore : CanPlace wideStore (.full "Blob")
      { name := "Blob", kind := .struct
        fields :=
          [{ name := "at", type := .record "Point" },
            { name := "data", type := .optional (.optional (.bits 1023)) },
            { name := "open", type := .bool }] }
      [{ name := "at", type := .record "Point" }] := by
    unfold CanPlace
    decide +kernel
  refine ⟨_, rfl, ?_⟩
  exact (request_tooLarge_iff rfl rfl hbefore).1.2 ⟨⟨nofun, by decide⟩, nofun⟩

/-- The refused value takes two bits and a reference, and its content of 1023 bits fits a cell. -/
theorem request_tooLarge_cut : ∃ t before f rest, wideStore.get? "Blob" = some t
    ∧ t.fields = before ++ f :: rest
    ∧ CanPlace wideStore (.full "Blob") t before
    ∧ f.type.withoutOptional = .bits 1023
    ∧ f.type.lower = .fixed (.optional (.optional (.bits 1023) true) false) ⟨2, 1⟩ ⟨1024, 0⟩
    ∧ ((request wideStore (.full "Blob")).run {}).1 = .error (.fieldTooLarge "Blob" f.name 1024) := by
  refine ⟨_, [{ name := "at", type := .record "Point" }], _, _, rfl, rfl, ?_, rfl, rfl, ?_⟩
  · unfold CanPlace
    decide +kernel
  · decide +kernel

end LayoutCache
end CellPack
