import Mathlib
import CellPack.Proofs.Outline
import CellPack.Proofs.Steps
/-!
# Slots are filled in order

The expressions of a store stand in one row of slots, and evaluation is one pass over this row: each
slot sees the values of earlier constants in its scope, and the first failure ends the pass. All
slots before it are filled, and it and all slots behind it are as they were
(`TypeStore.evaluate_slots`).
-/

namespace CellPack

/-! ## Slots -/

/-- What the value of a slot is for. -/
inductive SlotRole where
  | constant (name : String)
  /-- The default of a field or of a setup parameter. -/
  | default (field : String)
  | header
  deriving DecidableEq

/-- A place for the value of an expression. -/
structure Slot where
  /-- The record type that it is declared in; free-standing constants have none. -/
  owner : Option String
  role : SlotRole
  expr : Expr
  type : FieldType
  value : Option ConstValue
  deriving DecidableEq

/-- The slot of a constant. -/
def Constant.slot (owner : Option String) (c : Constant) : Slot :=
  ⟨owner, .constant c.name, c.expr, c.type, c.value⟩

/-- The slot of a field with a default. -/
def Field.slot? (owner : String) (f : Field) : Option Slot :=
  f.default.map fun e => ⟨some owner, .default f.name, e, f.type, f.value⟩

namespace RecordType

/-- The slots of the constants. -/
def constantSlots (t : RecordType) : List Slot := t.constants.map (Constant.slot (some t.name))

/-- The slots of the defaults of the fields, then of the parameters. -/
def defaultSlots (t : RecordType) : List Slot :=
  t.fields.filterMap (Field.slot? t.name) ++ (t.init.getD []).filterMap (Field.slot? t.name)

/-- The slot of the header, whose value is an integer. -/
def headerSlots (t : RecordType) : List Slot :=
  (t.header.map fun e =>
    ⟨some t.name, .header, e, .int (.uint 32), t.headerValue.map fun h => .int h.toNat⟩).toList

/-- The slots of a record type in order. -/
def slots (t : RecordType) : List Slot := t.constantSlots ++ (t.defaultSlots ++ t.headerSlots)

end RecordType

/-- The slots of a store in order. -/
def TypeStore.slots (s : TypeStore) : List Slot :=
  s.constants.map (Constant.slot none) ++ s.types.flatMap RecordType.slots

namespace Slot

/-- The constant that the slot holds the value of. -/
def binding? (p : Slot) : Option (String × ConstValue) :=
  match p.role with
  | .constant name => p.value.map (name, ·)
  | _ => none

/-- The constants among these slots that are free-standing or of this owner, in order. -/
def bindings (slots : List Slot) (owner : Option String) : List (String × ConstValue) :=
  (slots.filter fun p => p.owner = none ∨ p.owner = owner).filterMap binding?

/-- The constants that a slot of this owner behind these slots sees. -/
def scope (before : List Slot) (owner : Option String) : ConstEnv :=
  (bindings before owner).foldl (fun env b => Table.put env b.1 b.2) []

/-- A value that has to be an integer of 32 bits without a sign. -/
def checkHeader : ConstValue → Except EvalError ConstValue
  | .int v => if 0 ≤ v ∧ v < 2 ^ 32 then .ok (.int v) else .error (.outOfRange v (.uint 32))
  | v => .error (.typeMismatch (IntFormat.uint 32).text v.kindName)

/-- What the slot is to be filled with behind these slots. -/
def outcome (ev : Evaluator) (before : List Slot) (p : Slot) : Except EvalError ConstValue :=
  let value := ev p.expr p.type (scope before p.owner)
  match p.role with
  | .header => value >>= checkHeader
  | _ => value

/-- The slot holds what it is to be filled with behind these slots. -/
def Filled (ev : Evaluator) (before : List Slot) (p : Slot) : Prop :=
  ∃ v, p.outcome ev before = .ok v ∧ p.value = some v

/-- Each of the slots is filled, behind the given ones and those before it. -/
def AllFilled (ev : Evaluator) (before slots : List Slot) : Prop :=
  ∀ pre p post, slots = pre ++ p :: post → p.Filled ev (before ++ pre)

/-- One pass over slots behind others that are filled: the slots after it, and the first failure. -/
inductive Fills (ev : Evaluator) : List Slot → List Slot → List Slot → Option EvalError → Prop where
  | nil {before : List Slot} : Fills ev before [] [] none
  | stop {before rest : List Slot} {p : Slot} {e : EvalError}
    (h : p.outcome ev before = .error e) : Fills ev before (p :: rest) (p :: rest) (some e)
  | next {before rest rest' : List Slot} {p : Slot} {v : ConstValue} {failure : Option EvalError}
    (h : p.outcome ev before = .ok v)
    (hrest : Fills ev (before ++ [{ p with value := some v }]) rest rest' failure) :
    Fills ev before (p :: rest) ({ p with value := some v } :: rest') failure

/-! ## What slots see -/

/-- A name stands for the latest value among the constants that can be seen. -/
theorem get?_scope (before : List Slot) (owner : Option String) (name : String) :
    Table.get? (scope before owner) name = (bindings before owner).reverse.lookup name := by
  unfold scope
  induction bindings before owner using List.reverseRecOn with
  | nil => rfl
  | append_singleton bs b ih =>
    obtain ⟨k, v⟩ := b
    rw [List.foldl_append, List.reverse_append, List.foldl_cons, List.foldl_nil,
      Table.get?_put, ih]
    by_cases h : k = name
    · simp [h]
    · have hne : (name == k) = false := beq_eq_false_iff_ne.2 (Ne.symm h)
      simp [List.lookup_cons, h, hne]

theorem bindings_append (xs ys : List Slot) (owner : Option String) :
    bindings (xs ++ ys) owner = bindings xs owner ++ bindings ys owner := by
  simp [bindings]

/-- Slots that are out of sight, or of no constants, add nothing to a scope. -/
theorem scope_append {before slots : List Slot} {owner : Option String}
    (h : bindings slots owner = []) : scope (before ++ slots) owner = scope before owner := by
  rw [scope, bindings_append, h, List.append_nil, scope]

theorem bindings_other {slots : List Slot} {owner : Option String}
    (h : ∀ p ∈ slots, p.owner ≠ none ∧ p.owner ≠ owner) : bindings slots owner = [] := by
  have hnone : slots.filter (fun p => p.owner = none ∨ p.owner = owner) = [] :=
    List.filter_eq_nil_iff.2 fun p hp => by simpa using h p hp
  rw [bindings, hnone, List.filterMap_nil]

theorem bindings_of_none {slots : List Slot} (h : ∀ p ∈ slots, p.binding? = none)
    (owner : Option String) : bindings slots owner = [] :=
  List.filterMap_eq_nil_iff.2 fun p hp => h p (List.mem_of_mem_filter hp)

/-- Everybody sees the free-standing constants. -/
theorem scope_globals {slots : List Slot} (h : ∀ p ∈ slots, p.owner = none)
    (owner : Option String) : scope slots owner = scope slots none := by
  have hall (owner : Option String) :
      slots.filter (fun p => p.owner = none ∨ p.owner = owner) = slots :=
    List.filter_eq_self.2 fun p hp => by simp [h p hp]
  rw [scope, scope, bindings, bindings, hall, hall]

/-- A constant that has got its value is in the scope of what comes behind it. -/
theorem scope_constant (before : List Slot) (owner : Option String) (c : Constant)
    (v : ConstValue) :
    scope (before ++ [({ c with value := some v } : Constant).slot owner]) owner =
      Table.put (scope before owner) c.name v := by
  have hbinding : bindings [({ c with value := some v } : Constant).slot owner] owner =
      [(c.name, v)] := by
    simp [bindings, binding?, Constant.slot]
  rw [scope, bindings_append, hbinding, List.foldl_append, List.foldl_cons, List.foldl_nil, scope]

/-! ## One pass -/

section
variable {ev : Evaluator} {before xs xs' ys ys' : List Slot} {e : EvalError}
  {failure : Option EvalError}

/-- If a pass goes through, another one can follow it. -/
theorem Fills.append (h : Fills ev before xs xs' none)
    (h' : Fills ev (before ++ xs') ys ys' failure) :
    Fills ev before (xs ++ ys) (xs' ++ ys') failure := by
  generalize hnone : (none : Option EvalError) = result at h
  induction h with
  | nil => rwa [List.append_nil] at h'
  | stop => cases hnone
  | next h _ ih => exact .next h (ih (by rwa [List.append_assoc]) hnone)

/-- Where a pass stops, nothing happens behind it. -/
theorem Fills.append_error (h : Fills ev before xs xs' (some e)) :
    Fills ev before (xs ++ ys) (xs' ++ ys) (some e) := by
  generalize hsome : some e = result at h ⊢
  induction h with
  | nil => cases hsome
  | stop h => exact .stop h
  | next h _ ih => exact .next h (ih hsome)

theorem allFilled_nil : AllFilled ev before [] := by
  intro pre p post h
  simp at h

theorem AllFilled.cons {p : Slot} (hp : p.Filled ev before)
    (h : AllFilled ev (before ++ [p]) xs) : AllFilled ev before (p :: xs) := by
  intro pre q post hsplit
  cases pre with
  | nil =>
    cases hsplit
    rwa [List.append_nil]
  | cons r pre =>
    obtain ⟨rfl, rfl⟩ := List.cons_eq_cons.1 hsplit
    have := h pre q post rfl
    rwa [List.append_assoc] at this

/-- A pass without a failure fills all slots. -/
theorem Fills.allFilled (h : Fills ev before xs xs' none) : AllFilled ev before xs' := by
  generalize hnone : (none : Option EvalError) = result at h
  induction h with
  | nil => exact allFilled_nil
  | stop => cases hnone
  | next h _ ih => exact .cons ⟨_, h, rfl⟩ (ih hnone)

/-- A pass with a failure fills the slots before it and leaves the others alone. -/
theorem Fills.exists_failed (h : Fills ev before xs xs' (some e)) :
    ∃ filled p rest, xs' = filled ++ p :: rest ∧ xs.drop filled.length = p :: rest
      ∧ AllFilled ev before filled ∧ p.outcome ev (before ++ filled) = .error e := by
  generalize hsome : some e = result at h
  induction h with
  | nil => cases hsome
  | stop h =>
    cases hsome
    exact ⟨[], _, _, rfl, rfl, allFilled_nil, by rwa [List.append_nil]⟩
  | next h _ ih =>
    obtain ⟨filled, q, left, rfl, hdrop, hfilled, hq⟩ := ih hsome
    refine ⟨_ :: filled, q, left, rfl, hdrop, .cons ⟨_, h, rfl⟩ hfilled, ?_⟩
    rwa [List.append_assoc] at hq

end

end Slot

/-! ## The parts of a store -/

/-- The failure of a result. -/
def failure? {ε α : Type} : Except ε α → Option ε
  | .error e => some e
  | .ok _ => none

theorem failure?_map {ε α β : Type} (f : α → β) (r : Except ε α) :
    failure? (r.map f) = failure? r := by
  cases r <;> rfl

section
open Slot
variable (ev : Evaluator) {before : List Slot} {env : ConstEnv}

theorem fills_constants (owner : Option String) (cs : List Constant) :
    ∀ {before : List Slot} {env : ConstEnv}, scope before owner = env →
      Fills ev before (cs.map (Constant.slot owner))
        ((evaluateConstants ev env cs).1.map (Constant.slot owner))
        (failure? (evaluateConstants ev env cs).2)
      ∧ ∀ env', (evaluateConstants ev env cs).2 = .ok env' →
        scope (before ++ (evaluateConstants ev env cs).1.map (Constant.slot owner)) owner =
          env' := by
  induction cs with
  | nil =>
    rintro before env rfl
    refine ⟨.nil, fun env' h => ?_⟩
    cases h
    exact scope_append rfl
  | cons c cs ih =>
    rintro before env rfl
    unfold evaluateConstants
    cases hvalue : ev c.expr c.type (scope before owner) with
    | error e => exact ⟨.stop hvalue, fun env' h => by cases h⟩
    | ok v =>
      obtain ⟨hfills, hscope⟩ := ih (scope_constant before owner c v)
      refine ⟨.next hvalue hfills, fun env' h => ?_⟩
      have := hscope env' h
      rwa [List.append_assoc] at this

theorem binding?_default {owner : String} {fields : List Field} :
    ∀ p ∈ fields.filterMap (Field.slot? owner), p.binding? = none := by
  intro p hp
  obtain ⟨f, -, hf⟩ := List.mem_filterMap.1 hp
  obtain ⟨e, -, rfl⟩ := Option.map_eq_some_iff.1 hf
  rfl

theorem fills_defaults {owner : String} (fields : List Field) :
    ∀ {before : List Slot}, scope before (some owner) = env →
      Fills ev before (fields.filterMap (Field.slot? owner))
        ((evaluateDefaults ev env fields).1.filterMap (Field.slot? owner))
        (failure? (evaluateDefaults ev env fields).2) := by
  induction fields with
  | nil => exact fun _ => .nil
  | cons f fields ih =>
    rintro before rfl
    rcases f with ⟨name, type, _ | e, value⟩
    · exact ih rfl
    · unfold evaluateDefaults
      dsimp only
      cases hvalue : ev e type (scope before (some owner)) with
      | error e' => exact .stop hvalue
      | ok v =>
        have hscope : scope (before ++ [⟨some owner, .default name, e, type, some v⟩])
            (some owner) = scope before (some owner) :=
          scope_append (bindings_of_none (by simp [binding?]) _)
        exact .next hvalue (ih hscope)

namespace RecordType

theorem binding?_defaultSlots {t : RecordType} : ∀ p ∈ t.defaultSlots, p.binding? = none :=
  List.forall_mem_append.2 ⟨binding?_default, binding?_default⟩

theorem fills_defaultSlots (t : RecordType) (h : scope before (some t.name) = env) :
    Fills ev before t.defaultSlots (t.evaluateFields ev env).1.defaultSlots
      (failure? (t.evaluateFields ev env).2) := by
  have hfields := fills_defaults ev t.fields h
  unfold defaultSlots evaluateFields
  rcases heval : evaluateDefaults ev env t.fields with ⟨fields, e | ⟨⟩⟩ <;> rw [heval] at hfields
  · exact hfields.append_error
  · have hscope : scope (before ++ fields.filterMap (Field.slot? t.name)) (some t.name) = env := by
      rw [scope_append (bindings_of_none binding?_default _), h]
    cases t.init with
    | none => exact hfields.append .nil
    | some params => exact hfields.append (fills_defaults ev params hscope)

theorem checkHeader_eq (v : ConstValue) :
    checkHeader v = (headerOfValue v).map fun h => .int h.toNat := by
  cases v with
  | int v =>
    have hiff : (0 ≤ v ∧ v < 2 ^ 32) ↔ (0 ≤ v ∧ v.toNat < UInt32.size) := by
      refine and_congr_right fun h => ?_
      rw [Int.toNat_lt h]
      rfl
    unfold checkHeader headerOfValue
    dsimp only
    by_cases h : 0 ≤ v ∧ v < 2 ^ 32
    · obtain ⟨h0, hlt⟩ := hiff.1 h
      rw [if_pos h, if_pos ⟨h0, hlt⟩, Except.map, UInt32.toNat_ofNat_of_lt' hlt,
        Int.toNat_of_nonneg h0]
    · rw [if_neg h, if_neg fun h' => h (hiff.2 h')]
      rfl
  | _ => rfl

theorem fills_headerSlots (t : RecordType) (h : scope before (some t.name) = env) :
    Fills ev before t.headerSlots (t.evaluateHeader ev env).1.headerSlots
      (failure? (t.evaluateHeader ev env).2) := by
  rcases t with ⟨name, kind, fields, _ | x, headerValue, schema, origin, init, constants⟩
  · exact .nil
  · subst h
    have houtcome (value : Option ConstValue) :
        (⟨some name, .header, x, .int (.uint 32), value⟩ : Slot).outcome ev before =
          (ev x (.int (.uint 32)) (scope before (some name)) >>= headerOfValue).map
            fun h => .int h.toNat := by
      change ev x (.int (.uint 32)) (scope before (some name)) >>= checkHeader = _
      cases ev x (.int (.uint 32)) (scope before (some name)) with
      | error e => rfl
      | ok v => exact checkHeader_eq v
    unfold evaluateHeader
    dsimp only
    cases hvalue : ev x (.int (.uint 32)) (scope before (some name)) >>= headerOfValue with
    | error e =>
      refine .stop ?_
      rw [houtcome, hvalue]
      rfl
    | ok header =>
      refine .next (v := .int header.toNat) ?_ .nil
      rw [houtcome, hvalue]
      rfl

theorem owner_of_mem_slots {t : RecordType} : ∀ p ∈ t.slots, p.owner = some t.name := by
  intro p hp
  simp only [slots, constantSlots, defaultSlots, headerSlots, List.mem_append, List.mem_map,
    List.mem_filterMap, Option.mem_toList, Option.map_eq_some_iff, Field.slot?] at hp
  obtain ⟨c, -, rfl⟩ | (⟨f, -, e, -, rfl⟩ | ⟨f, -, e, -, rfl⟩) | ⟨e, -, rfl⟩ := hp <;> rfl

/-- The slots of a record type are filled in one pass, behind slots that show it the globals. -/
theorem fills_slots (t : RecordType) {globals : ConstEnv}
    (h : scope before (some t.name) = globals) :
    Fills ev before t.slots (t.evaluate ev globals).1.slots
      (failure? (t.evaluate ev globals).2) := by
  obtain ⟨hconstants, hscope⟩ := fills_constants ev (some t.name) t.constants h
  unfold evaluate
  rcases heval : evaluateConstants ev globals t.constants with ⟨constants, e | env⟩
  · rw [heval] at hconstants
    exact hconstants.append_error
  · rw [heval] at hconstants hscope
    let t' : RecordType := { t with constants }
    have hfields := fills_defaultSlots ev t' (hscope env rfl)
    -- Neither step touches other slots than its own.
    obtain ⟨fields, init, hframe⟩ := t'.exists_evaluateFields ev env
    dsimp only
    rcases heval' : t'.evaluateFields ev env with ⟨t'', e | ⟨⟩⟩ <;>
      simp only [heval'] at hfields hframe ⊢ <;> subst hframe
    · exact hconstants.append hfields.append_error
    · let t'' : RecordType := { t' with fields, init }
      have hseen : scope (before ++ t'.constantSlots ++ t''.defaultSlots) (some t''.name) =
          env := by
        rw [scope_append (bindings_of_none binding?_defaultSlots _)]
        exact hscope env rfl
      have hheader := fills_headerSlots ev t'' hseen
      obtain ⟨headerValue, hframe⟩ := t''.exists_evaluateHeader ev env
      rw [hframe] at hheader ⊢
      exact hconstants.append (hfields.append hheader)

end RecordType

/-- What has been filled for one record type is out of sight for the others. -/
theorem fills_types {globals : ConstEnv} (ts : List RecordType) :
    ∀ {before : List Slot}, (ts.map (·.name)).Nodup →
      (∀ t ∈ ts, scope before (some t.name) = globals) →
      Fills ev before (ts.flatMap RecordType.slots)
        ((evaluateTypes ev globals ts).1.flatMap RecordType.slots)
        (failure? (evaluateTypes ev globals ts).2) := by
  induction ts with
  | nil => exact fun _ _ => .nil
  | cons t ts ih =>
    intro before hdistinct hseen
    obtain ⟨hfresh, hdistinct⟩ := List.nodup_cons.1 hdistinct
    have ht := t.fills_slots ev (hseen t List.mem_cons_self)
    have hname := t.name_evaluate ev globals
    unfold evaluateTypes
    rw [List.flatMap_cons]
    rcases heval : t.evaluate ev globals with ⟨t', e | ⟨⟩⟩ <;> simp only [heval] at ht hname ⊢
    · exact ht.append_error
    · refine ht.append (ih hdistinct fun u hu => ?_)
      have hne : t'.name ≠ u.name := by
        rw [hname]
        exact fun h => hfresh (List.mem_map.2 ⟨u, hu, h.symm⟩)
      have hhidden : bindings t'.slots (some u.name) = [] := by
        refine bindings_other fun p hp => ?_
        rw [RecordType.owner_of_mem_slots p hp]
        exact ⟨Option.some_ne_none _, fun h => hne (Option.some.inj h)⟩
      rw [scope_append hhidden]
      exact hseen u (List.mem_cons_of_mem _ hu)

namespace TypeStore

/-- The slots of a store are filled in one pass. -/
theorem fills_slots (s : TypeStore) :
    Fills ev [] s.slots (s.evaluate ev).1.slots (failure? (s.evaluate ev).2)
    ∧ ∀ globals, (s.evaluate ev).2 = .ok globals →
      globals = scope (s.evaluate ev).1.slots none := by
  have hempty : scope [] none = [] := rfl
  obtain ⟨hconstants, hscope⟩ := fills_constants ev none s.constants hempty
  unfold evaluate
  rcases heval : evaluateConstants ev [] s.constants with ⟨constants, e | globals⟩
  · rw [heval] at hconstants
    exact ⟨hconstants.append_error, fun globals h => by cases h⟩
  · rw [heval] at hconstants hscope
    have hseen (owner : Option String) :
        scope (constants.map (Constant.slot none)) owner = globals := by
      rw [← hscope globals rfl]
      exact scope_globals (by simp [Constant.slot]) owner
    have htypes := fills_types ev s.types s.types_distinct fun t _ => hseen (some t.name)
    refine ⟨?_, fun globals' h => ?_⟩
    · rw [failure?_map]
      exact hconstants.append htypes
    · have hhidden : bindings ((evaluateTypes ev globals s.types).1.flatMap RecordType.slots) none =
          [] := by
        refine bindings_other fun p hp => ?_
        obtain ⟨t, -, ht⟩ := List.mem_flatMap.1 hp
        rw [RecordType.owner_of_mem_slots p ht]
        exact ⟨Option.some_ne_none _, Option.some_ne_none _⟩
      have hsame : globals = globals' := by
        cases hresult : (evaluateTypes ev globals s.types).2 with
        | error e => simp [hresult, Except.map] at h
        | ok u => simpa [hresult, Except.map] using h
      rw [← hsame]
      exact ((scope_append hhidden).trans (hseen none)).symm

/-! ## Evaluation of a store -/

/--
Evaluation is one pass over the slots in order and changes nothing else. A slot sees the latest
values of the free-standing constants and the constants of its own record type that come before it.
If nothing fails, all slots are filled and the free-standing constants are returned. Otherwise the
failure is that of the first slot that cannot be filled. Those before it are filled, and it and
those behind it are as they were.
-/
theorem evaluate_slots (s : TypeStore) :
    (s.evaluate ev).1.blank = s.blank
    ∧ (match s.evaluate ev with
      | (s', .ok globals) => Slot.AllFilled ev [] s'.slots ∧ globals = Slot.scope s'.slots none
      | (s', .error e) => ∃ filled p rest, s'.slots = filled ++ p :: rest
          ∧ s.slots.drop filled.length = p :: rest ∧ Slot.AllFilled ev [] filled
          ∧ p.outcome ev filled = .error e)
    ∧ ∀ before owner name, Table.get? (Slot.scope before owner) name =
        (Slot.bindings before owner).reverse.lookup name := by
  refine ⟨s.blank_evaluate ev, ?_, Slot.get?_scope⟩
  obtain ⟨hfills, hglobals⟩ := s.fills_slots ev
  rcases heval : s.evaluate ev with ⟨s', e | globals⟩ <;> rw [heval] at hfills hglobals
  · exact hfills.exists_failed
  · exact ⟨hfills.allFilled, hglobals globals rfl⟩

end TypeStore
end

end CellPack
