import Mathlib
import CellPack.Machine.Run
import CellPack.Procedure.Body
import CellPack.Proofs.Layouts
/-!
# Optional values in cells of their own

An optional value goes to a cell of its own if it fills a cell without its bit. No further layer has
room then, so among the operations of a layout only the outermost one can be such a box
(`FieldType.boxFills_lower`). The text of a parser reads a box in lines of its own there, and would
ignore it anywhere else (`Body.follows_loadLines_iff`). So it follows the references that a run
follows (`LayoutCache.request_boxOutermost`).
-/

namespace CellPack

/-! ## Boxes -/

namespace FieldOp

/-- The operations below an operation: one for each of its optional layers. -/
def inners : FieldOp → List FieldOp
  | optional inner _ => inner :: inner.inners
  | _ => []

/-- An optional value in a cell of its own that is not a record in place there. -/
def IsBox (op : FieldOp) : Prop :=
  ∃ inner, op = .optional inner true ∧ ∀ name, inner ≠ .record name false

/-- No operation below is a box. -/
def BoxOutermost (op : FieldOp) : Prop := ∀ sub ∈ op.inners, ¬sub.IsBox

theorem boxOutermost_optional {inner : FieldOp} {boxed : Bool} :
    (optional inner boxed).BoxOutermost ↔ ¬inner.IsBox ∧ inner.BoxOutermost :=
  List.forall_mem_cons

theorem not_isBox {op : FieldOp} (h : ∀ inner, op ≠ .optional inner true) : ¬op.IsBox :=
  fun ⟨inner, heq, _⟩ => h inner heq

theorem not_isBox_record (name : String) : ¬(optional (.record name false) true).IsBox := by
  rintro ⟨_, heq, h⟩
  cases heq
  exact h name rfl

/-- A box takes a bit in place and fills a cell. All else is no larger than its content. -/
structure BoxFills (op : FieldOp) (size payload : CellSize) : Prop where
  refs : size.refs ≤ 1
  outermost : payload.fitsCell = true → op.BoxOutermost
  box : op.IsBox → size.bits = 1 ∧ maxCellBits ≤ payload.bits
  other : ¬op.IsBox → size.bits ≤ payload.bits

end FieldOp

namespace Lowered

/-- What is known of the boxes in an operation of a field type. -/
def BoxFills : Lowered → Prop
  | fixed op size payload => op.BoxFills size payload
  | nested _ => True

theorem boxFills_plain {op : FieldOp} {size : CellSize} (hrefs : size.refs ≤ 1)
    (hop : op.BoxOutermost) (hbox : ¬op.IsBox) : (plain op size).BoxFills where
  refs := hrefs
  outermost _ := hop
  box h := absurd h hbox
  other _ := le_refl _

theorem boxFills_inPlace {op : FieldOp} {size payload : CellSize} (h : op.BoxFills size payload)
    (hfits : ((⟨1, 0⟩ : CellSize) + size).fitsCell = true) :
    (FieldOp.optional op false).BoxFills (⟨1, 0⟩ + size) (⟨1, 0⟩ + payload) where
  refs := by
    rw [CellSize.add_of_fitsCell hfits]
    simpa using h.refs
  outermost hpayload := by
    refine FieldOp.boxOutermost_optional.2
      ⟨fun hbox => ?_, h.outermost (CellSize.fitsCell_right hpayload)⟩
    have hbits := (CellSize.fitsCell_iff.1 hpayload).1
    rw [CellSize.add_of_fitsCell hpayload] at hbits
    have := (h.box hbox).2
    simp only at hbits
    omega
  box hbox := absurd hbox (FieldOp.not_isBox nofun)
  other _ := by
    have hle : size.bits ≤ payload.bits := by
      by_cases hbox : op.IsBox
      · have := h.box hbox
        simp only [maxCellBits] at this
        omega
      · exact h.other hbox
    rw [CellSize.add_eq, CellSize.add_eq]
    simp only
    omega

theorem boxFills_boxed {op : FieldOp} {size payload : CellSize} (h : op.BoxFills size payload)
    (hfull : ¬((⟨1, 0⟩ : CellSize) + size).fitsCell = true) :
    (FieldOp.optional op true).BoxFills bitAndRef payload := by
  have hrefs := h.refs
  have hbits : maxCellBits ≤ size.bits := by
    rw [CellSize.fitsCell_iff, CellSize.add_eq] at hfull
    simp only [maxCellBits, usableCellRefs, maxCellRefs] at hfull ⊢
    omega
  have hbox : ¬op.IsBox := fun hbox => by
    have := (h.box hbox).1
    simp only [maxCellBits] at hbits
    omega
  have hpayload := hbits.trans (h.other hbox)
  exact
    { refs := le_refl 1
      outermost := fun hfits => FieldOp.boxOutermost_optional.2 ⟨hbox, h.outermost hfits⟩
      box := fun _ => ⟨rfl, hpayload⟩
      other := fun _ => le_trans (by decide) hpayload }

theorem boxFills_optional {lowered : Lowered} (h : lowered.BoxFills) :
    lowered.optional.BoxFills := by
  unfold optional
  split
  · exact boxFills_plain (le_refl 1) nofun (FieldOp.not_isBox nofun)
  · refine boxFills_plain (le_refl 1) ?_ (FieldOp.not_isBox nofun)
    exact FieldOp.boxOutermost_optional.2 ⟨FieldOp.not_isBox nofun, nofun⟩
  · next op size payload _ _ =>
    dsimp only
    split
    · next hfits => exact boxFills_inPlace h hfits
    · next hfull => exact boxFills_boxed h hfull
  · refine boxFills_plain (le_refl 1) ?_ (FieldOp.not_isBox_record _)
    exact FieldOp.boxOutermost_optional.2 ⟨FieldOp.not_isBox nofun, nofun⟩

end Lowered

theorem FieldType.boxFills_lower (type : FieldType) : type.lower.BoxFills := by
  induction type with
  | optional inner ih => exact Lowered.boxFills_optional ih
  | record name => trivial
  | cell | slice | builder | string | map =>
    exact Lowered.boxFills_plain (le_refl 1) nofun (FieldOp.not_isBox nofun)
  | int | bool | address | bits =>
    exact Lowered.boxFills_plain (Nat.zero_le 1) nofun (FieldOp.not_isBox nofun)

/-- No operation that a field can have in a cell has a box below. -/
theorem Costs.boxOutermost {nested : String → Layout → Prop} {current : LayoutCell}
    {type : FieldType} {op : FieldOp} {size : CellSize} (h : Costs nested current type op size) :
    op.BoxOutermost := by
  cases h with
  | fixed h fits =>
    have hfills := type.boxFills_lower
    rw [h] at hfills
    exact hfills.outermost fits
  | @nested name l h hl =>
    obtain ⟨boxed, heq, -⟩ := nestedOp_eq current name l
    rw [heq]
    exact nofun

/-! ## Plans of reading -/

/-- What a read goes through. -/
inductive ReadPlan where
  /-- A value that is not optional. -/
  | value (op : FieldOp)
  /-- A bit that says whether a value follows. -/
  | present (rest : ReadPlan)
  /-- A reference, and what is read from the cell behind it. -/
  | follow (rest : ReadPlan)

namespace FieldOp

/-- What reading a value of the operation goes through. -/
def plan : FieldOp → ReadPlan
  | optional inner false => .present inner.plan
  | optional inner true => .present (.follow inner.plan)
  | op => .value op

/-- The plan of an operation starts with a bit or is a value. -/
theorem plan_ne_follow (op : FieldOp) (p : ReadPlan) : op.plan ≠ .follow p := by
  fun_cases plan op <;> exact nofun

theorem eq_of_plan {op value : FieldOp} (h : op.plan = .value value) : op = value := by
  cases op with
  | optional inner boxed => cases boxed <;> cases h
  | _ => exact ReadPlan.value.inj h

theorem exists_of_plan_boxed {op : FieldOp} {p : ReadPlan} (h : op.plan = .present (.follow p)) :
    ∃ inner, op = optional inner true ∧ inner.plan = p := by
  cases op with
  | optional inner boxed =>
    cases boxed with
    | false => exact absurd (ReadPlan.present.inj h) (inner.plan_ne_follow p)
    | true => exact ⟨inner, rfl, ReadPlan.follow.inj (ReadPlan.present.inj h)⟩
  | _ => cases h

end FieldOp

namespace Machine

/-- Reads along a plan. -/
def readAlong (call : String → Slice → Run (Value × Slice)) :
    ReadPlan → Slice → Run (Value × Slice)
  | .value op, s => loadOp call op s
  | .present rest, s => do
    let (present, s) ← Run.read Slice.loadBit s
    if !present then return (.null, s) else readAlong call rest s
  | .follow rest, s => do
    let (c, s) ← Run.read Slice.loadRef s
    let (v, _) ← readAlong call rest c.toSlice
    return (v, s)

/-- A run reads along the plan of the operation. -/
theorem loadOp_eq_readAlong (call : String → Slice → Run (Value × Slice)) (op : FieldOp) :
    loadOp call op = readAlong call op.plan := by
  induction op with
  | optional inner boxed ih =>
    funext s
    cases boxed with
    | false => rw [loadOp, ih]; rfl
    | true => rw [loadOp, ih]; rfl
  | _ => rfl

end Machine

namespace Body

/-! ## Text of reading -/

/-- The line that reads a field in place. -/
def inPlaceLines (field : String) (t : Line) : List Line :=
  [[.text ("var " ++ value field ++ " = ")] ++ t ++ [.text ";"]]

/-- The slice of the cell that a field is in. -/
def boxSlice (field : String) : String := "sc'" ++ field

/-- The lines that read a field out of a box. -/
def boxedLines (s field : String) (t : Line) : List Line :=
  [.plain ("var " ++ value field ++ " = null();"), .plain ("if (" ++ s ++ "~load_int(1)) \x7b"),
    .plain ("    slice " ++ boxSlice field ++ " = " ++ s ++ "~load_ref().begin_parse();"),
    [.text ("    " ++ value field ++ " = ")] ++ t ++ [.text ";"], .plain "\x7d"]

/-- A condition on the presence bit. -/
def ifPresent (s : String) (t : Line) : Line :=
  [.text (s ++ "~load_int(1) ? ")] ++ t ++ [.text " : null()"]

/-- Reads a value in place as `load` does, but for boxes. -/
def load? (s : String) : FieldOp → Option Line
  | .optional (.record name false) true => some (load s (.optional (.record name false) true))
  | .optional _ true => none
  | .optional inner false => (load? s inner).map (ifPresent s)
  | op => some (load s op)

/-- Reads a field as `loadLines` does, but has no lines if a box would be read in place. -/
def loadLines? (op : FieldOp) (s field : String) : Option (List Line) :=
  match boxedInner? op with
  | some inner => (load? (boxSlice field) inner).map (boxedLines s field)
  | none => (load? s op).map (inPlaceLines field)

/--
The text reads a value in place along a plan. Behind a bit, only the helper for records goes on in
another cell.
-/
inductive Follows (s : String) : ReadPlan → Line → Prop where
  | value {op : FieldOp} (h : ∀ inner boxed, op ≠ .optional inner boxed) :
      Follows s (.value op) (load s op)
  | helper (name : String) : Follows s (.present (.follow (.value (.record name false))))
      (.around (s ++ "~") (ProcName.loadOpt name) "()")
  | present {p : ReadPlan} {t : Line} (h : Follows s p t) : Follows s (.present p) (ifPresent s t)

/-- The lines read a field along a plan. -/
inductive FollowsLines (s field : String) : ReadPlan → List Line → Prop where
  | inPlace {p : ReadPlan} {t : Line} (h : Follows s p t) :
      FollowsLines s field p (inPlaceLines field t)
  | boxed {p : ReadPlan} {t : Line} (h : Follows (boxSlice field) p t) :
      FollowsLines s field (.present (.follow p)) (boxedLines s field t)

variable {op : FieldOp}

/-- An operation is a box with lines of its own, or none. -/
theorem boxedInner?_cases (op : FieldOp) :
    (∃ inner, op = .optional inner true ∧ boxedInner? op = some inner)
      ∨ ¬op.IsBox ∧ boxedInner? op = none := by
  fun_cases boxedInner? op with
  | case1 name => exact .inr ⟨FieldOp.not_isBox_record name, rfl⟩
  | case2 inner _ => exact .inl ⟨inner, rfl, rfl⟩
  | case3 _ _ hop => exact .inr ⟨FieldOp.not_isBox hop, rfl⟩

theorem loadLines_of_box {inner : FieldOp} (h : boxedInner? op = some inner) (s field : String) :
    loadLines op s field = boxedLines s field (load (boxSlice field) inner) := by
  rw [loadLines, h]
  rfl

theorem loadLines_of_other (h : boxedInner? op = none) (s field : String) :
    loadLines op s field = inPlaceLines field (load s op) := by
  rw [loadLines, h]
  rfl

theorem load_inPlace (s : String) (inner : FieldOp) :
    load s (.optional inner false) = ifPresent s (load s inner) := by
  rw [load]
  · rfl
  · exact nofun

/-- An operation without boxes has text in place. -/
theorem load?_of_noBox (s : String) (hbox : ¬op.IsBox) (h : op.BoxOutermost) :
    load? s op = some (load s op) := by
  induction op with
  | optional inner boxed ih =>
    cases boxed with
    | false =>
      obtain ⟨hinner, hbelow⟩ := FieldOp.boxOutermost_optional.1 h
      rw [load?, ih hinner hbelow, load_inPlace]
      rfl
    | true =>
      obtain ⟨name, rfl⟩ : ∃ name, inner = .record name false := by
        by_contra hname
        exact hbox ⟨inner, rfl, not_exists.1 hname⟩
      rfl
  | _ => rfl

/-- Text in place that reads no box reads along the plan. -/
theorem follows_of_load? {s : String} {t : Line} (h : load? s op = some t) :
    Follows s op.plan t := by
  fun_induction load? s op generalizing t with
  | case1 name =>
    cases h
    exact .helper name
  | case2 => cases h
  | case3 inner ih =>
    obtain ⟨t', ht', rfl⟩ := Option.map_eq_some_iff.1 h
    exact (ih ht').present
  | case4 op _ hboxed hplace =>
    cases h
    cases op with
    | optional inner boxed =>
      cases boxed with
      | false => exact (hplace inner rfl).elim
      | true => exact (hboxed inner rfl).elim
    | _ => exact .value nofun

theorem Follows.of_present {s : String} {p : ReadPlan} {t : Line} (h : Follows s (.present p) t) :
    (∃ name, p = .follow (.value (.record name false))) ∨ ∃ t', Follows s p t' := by
  cases h with
  | helper name => exact .inl ⟨name, rfl⟩
  | present h => exact .inr ⟨_, h⟩

/-- Only text for an operation without boxes can read along its plan in place. -/
theorem noBox_of_follows {s : String} {t : Line} (h : Follows s op.plan t) :
    ¬op.IsBox ∧ op.BoxOutermost := by
  induction op generalizing t with
  | optional inner boxed ih =>
    cases boxed with
    | false =>
      obtain ⟨name, hplan⟩ | ⟨t', hinner⟩ := Follows.of_present h
      · exact absurd hplan (FieldOp.plan_ne_follow inner _)
      · exact ⟨FieldOp.not_isBox nofun, FieldOp.boxOutermost_optional.2 (ih hinner)⟩
    | true =>
      obtain ⟨name, hplan⟩ | ⟨t', hinner⟩ := Follows.of_present h
      · obtain rfl := FieldOp.eq_of_plan (ReadPlan.follow.inj hplan)
        refine ⟨FieldOp.not_isBox_record name, FieldOp.boxOutermost_optional.2 ?_⟩
        exact ⟨FieldOp.not_isBox nofun, nofun⟩
      · cases hinner
  | _ => exact ⟨FieldOp.not_isBox nofun, nofun⟩

theorem loadLines?_of_boxOutermost (s field : String) (h : op.BoxOutermost) :
    loadLines? op s field = some (loadLines op s field) := by
  obtain ⟨inner, rfl, hboxed⟩ | ⟨hbox, hboxed⟩ := boxedInner?_cases op
  · obtain ⟨hinner, hbelow⟩ := FieldOp.boxOutermost_optional.1 h
    rw [loadLines?, hboxed, loadLines_of_box hboxed]
    simp only [load?_of_noBox (boxSlice field) hinner hbelow, Option.map_some]
  · rw [loadLines?, hboxed, loadLines_of_other hboxed]
    simp only [load?_of_noBox s hbox h, Option.map_some]

theorem follows_of_loadLines? {s field : String} {lines : List Line}
    (h : loadLines? op s field = some lines) : FollowsLines s field op.plan lines := by
  obtain ⟨inner, rfl, hboxed⟩ | ⟨-, hboxed⟩ := boxedInner?_cases op
  · rw [loadLines?, hboxed] at h
    obtain ⟨t, ht, rfl⟩ := Option.map_eq_some_iff.1 h
    exact .boxed (follows_of_load? ht)
  · rw [loadLines?, hboxed] at h
    obtain ⟨t, ht, rfl⟩ := Option.map_eq_some_iff.1 h
    exact .inPlace (follows_of_load? ht)

theorem boxOutermost_of_follows {s field : String} {lines : List Line}
    (h : FollowsLines s field op.plan lines) : op.BoxOutermost := by
  generalize hplan : op.plan = plan at h
  cases h with
  | inPlace h =>
    subst hplan
    exact (noBox_of_follows h).2
  | boxed h =>
    obtain ⟨inner, rfl, rfl⟩ := FieldOp.exists_of_plan_boxed hplan
    exact FieldOp.boxOutermost_optional.2 (noBox_of_follows h)

/-- The lines of a field read no box in place exactly if there is none below. -/
theorem loadLines?_eq_iff (s field : String) :
    loadLines? op s field = some (loadLines op s field) ↔ op.BoxOutermost :=
  ⟨fun h => boxOutermost_of_follows (follows_of_loadLines? h), loadLines?_of_boxOutermost s field⟩

/-- A box below another optional value, which no layout has. -/
example : loadLines? (.optional (.optional .bool true) false) "sc0" "x" = none := rfl

/-- The lines of a field read along its plan exactly if there are no boxes below. -/
theorem follows_loadLines_iff (s field : String) :
    FollowsLines s field op.plan (loadLines op s field) ↔ op.BoxOutermost :=
  ⟨boxOutermost_of_follows, fun h => follows_of_loadLines? (loadLines?_of_boxOutermost s field h)⟩

end Body

/-! ## Layouts -/

namespace LayoutCache

variable {s : TypeStore} {c : LayoutCache}

theorem Filled.boxOutermost {id : LayoutId} {t : RecordType} {header : Option UInt32}
    {fields : List Field} {l : Layout} (h : c.Filled id t header fields l) :
    ∀ p ∈ l.placements, p.op.BoxOutermost := by
  intro p hp
  obtain ⟨f, -, hf⟩ := exists_field_of_placed h.placed hp
  obtain ⟨current, hcost⟩ := hf.costs
  exact hcost.boxOutermost

theorem Valid.boxOutermost (hc : Valid s c) {id : LayoutId} {l : Layout}
    (hl : c.get? id = some l) : ∀ p ∈ l.placements, p.op.BoxOutermost := by
  obtain ⟨t, -, ⟨_, _, -, hl⟩ | ⟨name, full, -, -, hfull, rfl⟩⟩ := hc.filled_or_bounced hl
  · exact hl.boxOutermost
  · obtain ⟨first, rest, hcells, hfirst, -⟩ := hfull.fits
    exact fun p hp => hfull.boxOutermost p (Layout.placements_bounced_subset hcells hfirst _ _ hp)

/--
Whatever was requested before, the fields of a layout have no box below another optional value.
Their lines read no box in place, and go through the bits and references that a run goes through.
-/
theorem request_boxOutermost {requested : List LayoutId} {id : LayoutId} {l : Layout}
    {c : LayoutCache} (h : (request s id).run (after s requested) = (.ok l, c)) :
    ∀ p ∈ l.placements, p.op.BoxOutermost
      ∧ (∀ slice, Body.loadLines? p.op slice p.field = some (Body.loadLines p.op slice p.field)
        ∧ Body.FollowsLines slice p.field p.op.plan (Body.loadLines p.op slice p.field))
      ∧ ∀ call, Machine.loadOp call p.op = Machine.readAlong call p.op.plan := by
  obtain ⟨-, hc, hl⟩ := (keeps_request s id (valid_after s requested)).ok_of_run h
  intro p hp
  have houtermost := hc.boxOutermost hl p hp
  refine ⟨houtermost, fun slice => ⟨?_, ?_⟩, fun call => Machine.loadOp_eq_readAlong call p.op⟩
  · exact (Body.loadLines?_eq_iff slice p.field).2 houtermost
  · exact (Body.follows_loadLines_iff slice p.field).2 houtermost

/-- A message with a box around an optional value, and with a record behind two bits. -/
def boxStore : TypeStore where
  types :=
    [{ name := "Note", kind := .message
       fields :=
         [{ name := "text", type := .optional (.optional (.bits 1022)) },
           { name := "reply", type := .optional (.optional (.record "Note")) }] }]
  types_distinct := by decide

/-- Behind a request that fails, a layout with both. -/
theorem request_boxOutermost_sample :
    ∃ l c, (request boxStore (.full "Note")).run (after boxStore [.full "Nobody"]) = (.ok l, c)
      ∧ l.placements.map (·.op) =
        [.optional (.optional (.bits 1022) false) true,
          .optional (.optional (.record "Note" false) true) false]
      ∧ ∀ p ∈ l.placements, p.op.BoxOutermost := by
  have hops :
      ((request boxStore (.full "Note")).run (after boxStore [.full "Nobody"])).1.toOption.map
        (fun l => l.placements.map (·.op)) = some [.optional (.optional (.bits 1022) false) true,
          .optional (.optional (.record "Note" false) true) false] := by decide +kernel
  rcases h : (request boxStore (.full "Note")).run (after boxStore [.full "Nobody"]) with ⟨e | l, c⟩
  · rw [h] at hops
    cases hops
  · rw [h] at hops
    exact ⟨l, c, rfl, Option.some.inj hops, fun p hp => (request_boxOutermost h p hp).1⟩

end LayoutCache
end CellPack
