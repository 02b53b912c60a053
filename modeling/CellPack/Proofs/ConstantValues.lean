import Mathlib
import CellPack.Proofs.Files
import CellPack.Proofs.Registration
/-!
# Values of constants in the output

A free-standing constant may be declared more than once. Other expressions see the last value of the
name, the procedure of the name returns the first one, and bindings are offered all of them
(`Artifact.constants_shown`). So they agree where all constants of the name have the same value.
-/

namespace CellPack

/-- The free-standing constants of a name, in order. -/
def TypeStore.constantsOf (s : TypeStore) (name : String) : List Constant :=
  s.constants.filter (·.name = name)

/-- The body of the procedure is the value. -/
def Procedure.Returns (p : Procedure) (v : ConstValue) : Prop :=
  p.body = [[.text "return "] ++ v.codeLiteral ++ [.text ";"]]

instance (p : Procedure) (v : ConstValue) : Decidable (p.Returns v) :=
  inferInstanceAs (Decidable (_ = _))

/-! ## The last value -/

/-- A name that was not known before stands for the last of its values. -/
theorem get?_evaluateConstants (ev : Evaluator) (name : String) (cs : List Constant) :
    ∀ {env env' : ConstEnv}, (evaluateConstants ev env cs).2 = .ok env' →
      Table.get? env' name =
        (((evaluateConstants ev env cs).1.filter (·.name = name)).filterMap (·.value)).getLast?.or
          (Table.get? env name) := by
  induction cs with
  | nil =>
    intro env env' h
    cases h
    rfl
  | cons c cs ih =>
    intro env env' h
    unfold evaluateConstants at h ⊢
    cases hvalue : ev c.expr c.type env with
    | error e =>
      rw [hvalue] at h
      cases h
    | ok v =>
      rw [hvalue] at h
      have hrest := ih h
      rw [Table.get?_put] at hrest
      by_cases hname : c.name = name
      · rw [if_pos hname] at hrest
        simp [hrest, hname, List.getLast?_cons, Option.or_some]
      · rw [if_neg hname] at hrest
        simpa [hname] using hrest

/-! ## The first value -/

namespace TypeStore

variable {s : TypeStore} {name : String} {first : ConstValue}

theorem find?_constants {cs : List Constant}
    (h : ((cs.filter (·.name = name)).filterMap (·.value)).head? = some first) :
    ∃ p, (cs.filterMap fun c => s.constantProcedure? (ProcName.constant c.name) .constants c).find?
        (·.name = ProcName.constant name) = some p
      ∧ p.name = ProcName.constant name ∧ p.part = .constants ∧ p.Returns first := by
  induction cs with
  | nil => cases h
  | cons c cs ih =>
    rw [List.filterMap_cons, constantProcedure?]
    cases hvalue : c.value with
    | none =>
      by_cases hname : c.name = name
      · exact ih (by simpa [hname, hvalue] using h)
      · exact ih (by simpa [hname] using h)
    | some v =>
      by_cases hname : c.name = name
      · obtain rfl : v = first := by simpa [hname, hvalue] using h
        subst hname
        exact ⟨_, List.find?_cons_of_pos (by simp), rfl, rfl, rfl⟩
      · have hother : ProcName.constant c.name ≠ ProcName.constant name := fun heq =>
          hname ((String.append_right_inj _).1 heq)
        obtain ⟨p, hp, hshape⟩ := ih (by simpa [hname] using h)
        exact ⟨p, (List.find?_cons_of_neg (by simpa using hother)).trans hp, hshape⟩

/-- Nothing that comes before the constants has the name of one. -/
theorem get?_registry_constant {a : Analysis} (link : String)
    (h : ((a.store.constantsOf name).filterMap (·.value)).head? = some first) :
    ∃ p, (a.registry link).get? (ProcName.constant name) = some p
      ∧ p.name = ProcName.constant name ∧ p.part = .constants ∧ p.Returns first := by
  obtain ⟨p, hp, hshape⟩ := find?_constants (s := a.store) h
  have hstdlib : Stdlib.procedures.find? (·.name = ProcName.constant name) = none := by
    refine List.find?_eq_none.2 fun q hq hname => ?_
    have hhead := (Stdlib.plain_of_mem_procedures hq).1
    exact Title.constant_ne_of_head hhead (of_decide_eq_true hname).symm
  refine ⟨p, ?_, hshape⟩
  rw [Analysis.registry, Registry.get?_addAll, Analysis.procedures, constantProcedures]
  simp only [List.find?_append, hstdlib, hp]
  rfl

end TypeStore

/-! ## Bindings -/

/-- The constants that a contract has for itself are marked as such. -/
theorem TypeStore.filter_constantBindings (s : TypeStore) (contract name : String) :
    (s.constantBindings contract).filter (fun b => b.name = name ∧ b.fromContract = false) =
      ((s.constantsOf name).filter (·.origin = .user)).filterMap (Constant.binding? false) := by
  have hbinding {marked : Bool} {c : Constant} {b : ConstantBinding}
      (h : c.binding? marked = some b) : b.name = c.name ∧ b.fromContract = marked := by
    obtain ⟨v, -, rfl⟩ := Option.map_eq_some_iff.1 h
    exact ⟨rfl, rfl⟩
  have hown : ∀ own : List Constant, (own.filterMap (Constant.binding? true)).filter
      (fun b => b.name = name ∧ b.fromContract = false) = [] := by
    intro own
    refine List.filter_eq_nil_iff.2 fun b hb => ?_
    obtain ⟨c, -, hc⟩ := List.mem_filterMap.1 hb
    simp [(hbinding hc).2]
  have hglobals : ∀ cs : List Constant, (cs.filterMap (Constant.binding? false)).filter
      (fun b => b.name = name ∧ b.fromContract = false) =
        (cs.filter (·.name = name)).filterMap (Constant.binding? false) := by
    intro cs
    induction cs with
    | nil => rfl
    | cons c cs ih =>
      rw [List.filterMap_cons]
      cases hc : c.binding? false with
      | none => by_cases hname : c.name = name <;> simpa [hname, hc] using ih
      | some b =>
        obtain ⟨hb, hmarked⟩ := hbinding hc
        by_cases hname : c.name = name <;> simpa [hname, hc, hb, hmarked] using ih
  rw [constantBindings, List.filter_append, hown, List.append_nil, hglobals, constantsOf,
    List.filter_filter, List.filter_filter]
  simp only [Bool.and_comm]

/-! ## Analyses -/

namespace Analysis

variable {s : TypeStore} {ev : Evaluator} {a : Analysis} {name : String}

theorem constants_analyzed (h : s.analyze ev = .ok a) :
    a.store.constants = (s.evaluate ev).1.constants := by
  obtain ⟨-, -, hsigned, -⟩ := TypeStore.analyze_eq_ok.1 h
  exact (TypeStore.withSignatures_eq_ok hsigned).2.2

theorem getLast?_constantsOf (h : s.analyze ev = .ok a) {v : ConstValue}
    (hv : Table.get? a.constants name = some v) :
    ((a.store.constantsOf name).filterMap (·.value)).getLast? = some v := by
  obtain ⟨hvalues, -⟩ := TypeStore.analyze_eq_ok.1 h
  have hlast := get?_evaluateConstants ev name s.constants (TypeStore.evaluate_eq_ok.1 hvalues).1
  rw [hv, ← TypeStore.constants_evaluate, ← constants_analyzed h] at hlast
  simpa [Table.get?, TypeStore.constantsOf] using hlast.symm

/-- One procedure of the output has the name of the constant, and it returns the first value. -/
theorem exists_returning (h : s.analyze ev = .ok a) (link : String) (comments : Bool)
    {first : ConstValue}
    (hfirst : ((a.store.constantsOf name).filterMap (·.value)).head? = some first) :
    ∃ p ∈ (a.registry link).extract comments, p.name = ProcName.constant name
      ∧ p.part = .constants ∧ p.Returns first
      ∧ ∀ q ∈ (a.registry link).extract comments, q.name = ProcName.constant name → q = p := by
  obtain ⟨q, hq, -, hpart, hreturns⟩ := TypeStore.get?_registry_constant link hfirst
  obtain ⟨p, hp, hname, hsame, hbody⟩ := (proper_registry a link).exists_mem_extract hq comments
  refine ⟨p, hp, hname, hsame.trans hpart, hbody.trans hreturns, fun q hq hqname => ?_⟩
  exact List.inj_on_of_nodup_map (covered_extract h link comments).2 hq hp
    (hqname.trans hname.symm)

end Analysis

/-! ## Artifacts -/

/-- The procedure of the constant returns the value, and bindings of its name show the value. -/
structure Artifact.Shows (art : Artifact) (ps : List Procedure) (name : String) (v : ConstValue) :
    Prop where
  returned : ∀ p ∈ ps, p.name = ProcName.constant name → p.Returns v
  offered : ∀ b ∈ art.constants, b.name = name → b.fromContract = false →
    b.value = v.bindingLiteral

namespace Artifact

section
variable {a : Analysis} {o : CompileOptions} {emitter : Emitter} {addresser : Addresser}
  {art : Artifact} (hart : a.artifact o emitter addresser = .ok art)

include hart

theorem filter_constants (name : String) :
    art.constants.filter (fun b => b.name = name ∧ b.fromContract = false) =
      ((a.store.constantsOf name).filter (·.origin = .user)).filterMap
        (Constant.binding? false) := by
  obtain ⟨entry, -, heq⟩ := bind_eq_ok.1 hart
  cases heq
  exact a.store.filter_constantBindings entry.name name

/-- Where all constants of a name have the same value, bindings show that value. -/
theorem offered_of_alike {name : String} {v : ConstValue}
    (hsame : ∀ c ∈ a.store.constantsOf name, c.value = some v) {b : ConstantBinding}
    (hb : b ∈ art.constants) (hname : b.name = name) (hfree : b.fromContract = false) :
    b.value = v.bindingLiteral := by
  have hmem : b ∈ art.constants.filter (fun b => b.name = name ∧ b.fromContract = false) :=
    List.mem_filter.2 ⟨hb, by simp [hname, hfree]⟩
  rw [filter_constants hart] at hmem
  obtain ⟨c, hc, hbinding⟩ := List.mem_filterMap.1 hmem
  rw [Constant.binding?, hsame c (List.mem_filter.1 hc).1] at hbinding
  cases hbinding
  rfl

end

variable {s : TypeStore} {o : CompileOptions} {tools : Toolchain} {art : Artifact}

/--
Every expression of a record type sees the last value of a free-standing constant. The one procedure
that is written for the name returns the first value, and bindings show those of the user's
constants in order. Where all constants of a name have the same value, the output shows what
expressions see.
-/
theorem constants_shown (hart : s.compile o tools = .ok art) :
    ∃ a ps, s.analyze tools.evaluator = .ok a
      ∧ ps = (a.registry art.abiLink).extract o.comments
      ∧ ⟨o.filePrefix ++ ".constants.fc",
          tools.emitter.emit [";; Constants"] (ps.filter (·.part = .constants))⟩ ∈ art.files
      ∧ a.store.constants = (s.evaluate tools.evaluator).1.constants
      ∧ (s.evaluate tools.evaluator).1.types =
        s.types.map (fun t => (t.evaluate tools.evaluator a.constants).1)
      ∧ ∀ name v, Table.get? a.constants name = some v →
        ((a.store.constantsOf name).filterMap (·.value)).getLast? = some v
        ∧ (∃ first, ((a.store.constantsOf name).filterMap (·.value)).head? = some first
          ∧ ∃ p ∈ ps, p.name = ProcName.constant name ∧ p.part = .constants ∧ p.Returns first
            ∧ ∀ q ∈ ps, q.name = ProcName.constant name → q = p)
        ∧ art.constants.filter (fun b => b.name = name ∧ b.fromContract = false) =
          ((a.store.constantsOf name).filter (·.origin = .user)).filterMap
            (Constant.binding? false)
        ∧ ((∀ c ∈ a.store.constantsOf name, c.value = some v) → art.Shows ps name v) := by
  obtain ⟨a, h, hart⟩ := TypeStore.exists_artifact hart
  obtain ⟨hvalues, -⟩ := TypeStore.analyze_eq_ok.1 h
  refine ⟨a, _, h, rfl, ?_, Analysis.constants_analyzed h, TypeStore.types_evaluate hvalues,
    fun name v hv => ?_⟩
  · obtain ⟨entry, -, heq⟩ := bind_eq_ok.1 hart
    cases heq
    simp [Analysis.libraryFiles, Analysis.inSection]
  · have hlast := Analysis.getLast?_constantsOf h hv
    obtain ⟨first, hfirst⟩ : ∃ first,
        ((a.store.constantsOf name).filterMap (·.value)).head? = some first := by
      cases hvalues : (a.store.constantsOf name).filterMap (·.value) with
      | nil => simp [hvalues] at hlast
      | cons first rest => exact ⟨first, rfl⟩
    obtain ⟨p, hp, hname, hpart, hreturns, honly⟩ :=
      Analysis.exists_returning h art.abiLink o.comments hfirst
    refine ⟨hlast, ⟨first, hfirst, p, hp, hname, hpart, hreturns, honly⟩,
      filter_constants hart name, fun hsame => ⟨fun q hq hqname => ?_, ?_⟩⟩
    · obtain ⟨c, hc, hvalue⟩ := List.mem_filterMap.1 (List.mem_of_mem_head? hfirst)
      obtain rfl : v = first := Option.some.inj ((hsame c hc).symm.trans hvalue)
      exact honly q hq hqname ▸ hreturns
    · exact fun b => offered_of_alike hart hsame

/-- A constant that is declared twice, and one of a contract that refers to it. -/
def sampleTwice : TypeStore where
  types :=
    [{ name := "Wallet", kind := .contract
       fields := [{ name := "owner", type := .address }]
       constants := [{ name := "Y", type := .int (.uint 8), expr := .const "X" }] }]
  constants :=
    [{ name := "X", type := .int (.uint 8), expr := .int 1 },
     { name := "X", type := .int (.uint 8), expr := .int 2 }]
  types_distinct := by decide

theorem exists_sampleTwice : ∃ art a, sampleTwice.compile { entry := "Wallet" } = .ok art
    ∧ sampleTwice.analyze Expr.evaluate = .ok a
    ∧ Table.get? a.constants "X" = some (.int 2)
    ∧ ((a.store.constantsOf "X").filterMap (·.value)).head? = some (.int 1)
    ∧ ⟨"X", "1n", false⟩ ∈ art.constants := by
  have hok : (sampleTwice.compile { entry := "Wallet" }).toOption.any (fun art =>
      decide (⟨"X", "1n", false⟩ ∈ art.constants)) = true := by decide +kernel
  have hvalue : (sampleTwice.analyze Expr.evaluate).toOption.any (fun a =>
      decide (Table.get? a.constants "X" = some (.int 2)
        ∧ ((a.store.constantsOf "X").filterMap (·.value)).head? = some (.int 1))) = true := by
    decide +kernel
  cases hart : sampleTwice.compile { entry := "Wallet" } with
  | error e =>
    rw [hart] at hok
    cases hok
  | ok art =>
    rw [hart] at hok
    obtain ⟨a, ha, -⟩ := TypeStore.exists_artifact hart
    rw [show sampleTwice.analyze Expr.evaluate = .ok a from ha] at hvalue
    obtain ⟨hlast, hfirst⟩ := of_decide_eq_true hvalue
    exact ⟨art, a, rfl, ha, hlast, hfirst, of_decide_eq_true hok⟩

/-- Expressions see 2, and the procedure returns 1. -/
theorem constants_shown_sample : ∃ art a, sampleTwice.compile { entry := "Wallet" } = .ok art
    ∧ sampleTwice.analyze Expr.evaluate = .ok a
    ∧ Table.get? a.constants "X" = some (.int 2)
    ∧ ∃ p ∈ (a.registry art.abiLink).extract false, p.name = "$const_X" ∧ p.Returns (.int 1) := by
  obtain ⟨art, a, hart, ha, hlast, hfirst, -⟩ := exists_sampleTwice
  obtain ⟨a', ps, ha', rfl, -, -, -, hshown⟩ := constants_shown hart
  obtain rfl : a' = a := Except.ok.inj (ha'.symm.trans ha)
  obtain ⟨-, ⟨first, hfirst', p, hp, hname, -, hreturns, -⟩, -⟩ := hshown "X" _ hlast
  obtain rfl : .int 1 = first := Option.some.inj (hfirst.symm.trans hfirst')
  exact ⟨art, a', hart, ha, hlast, p, hp, hname, hreturns⟩

/-- What the output shows for a constant need not be what expressions see. -/
theorem constants_shown_twice : ¬∀ (s : TypeStore) (o : CompileOptions) (art : Artifact)
    (a : Analysis), s.compile o = .ok art → s.analyze Expr.evaluate = .ok a →
      ∀ name v, Table.get? a.constants name = some v →
        art.Shows ((a.registry art.abiLink).extract o.comments) name v := by
  intro h
  obtain ⟨art, a, hart, ha, hvalue, -, hbinding⟩ := exists_sampleTwice
  have hshown := (h sampleTwice _ art a hart ha "X" _ hvalue).offered _ hbinding rfl rfl
  exact absurd hshown (by decide)

end Artifact
end CellPack
