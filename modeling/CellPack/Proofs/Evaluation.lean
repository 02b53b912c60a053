import Mathlib
import CellPack.Proofs.Steps
import CellPack.TypeStore.Evaluation
/-!
# Errors of evaluation

The hash of an address is read in chunks of two bytes, and reading cannot go on where a chunk ends
inside a character (`Address.ofText?_broken_iff`). An error about an address is about a literal of
the store (`TypeStore.explained_evaluate`), and an evaluator that reports all literals that it
cannot read as invalid changes nothing else (`TypeStore.evaluate_reported`).
-/

namespace CellPack

/-! ## Texts of addresses -/

namespace Address

/-- Behind chunks that are bytes there is one that ends inside a character. -/
inductive CutsCharacter : List Char → Prop where
  | first {c : Char} {cs : List Char} (hc : 2 < c.utf8Size) : CutsCharacter (c :: cs)
  | second {a b : Char} {cs : List Char} (ha : a.utf8Size = 1) (hb : 1 < b.utf8Size) :
    CutsCharacter (a :: b :: cs)
  | later {a b : Char} {cs : List Char} {byte : UInt8} (ha : a.utf8Size = 1) (hb : b.utf8Size = 1)
    (hbyte : pairByte? a b = some byte) (hcs : CutsCharacter cs) : CutsCharacter (a :: b :: cs)

/-- The text is an address up to a chunk of its hash that ends inside a character. -/
def CutText (s : String) : Prop :=
  ∃ left right workchain, splitColon? s.toList = some (left, right)
    ∧ Numeral.signed? left = some workchain ∧ (-128 ≤ workchain ∧ workchain ≤ 127)
    ∧ utf8Length right = 64 ∧ CutsCharacter right

theorem hashBytes_broken_iff (cs : List Char) (heven : Even (utf8Length cs)) :
    hashBytes cs = .error .brokenCharacter ↔ CutsCharacter cs := by
  induction cs using hashBytes.induct with
  | case1 => exact ⟨nofun, nofun⟩
  | case2 c =>
    have hlength : utf8Length [c] = c.utf8Size := rfl
    have hpos := c.utf8Size_pos
    rw [hlength] at heven
    unfold hashBytes
    constructor
    · intro h
      have hne : c.utf8Size ≠ 2 := by
        intro heq
        rw [if_pos heq] at h
        cases h
      refine .first ?_
      obtain ⟨k, hk⟩ := heven
      omega
    · intro h
      cases h with
      | first hc => rw [if_neg (by omega)]
  | case3 a b cs ha =>
    unfold hashBytes
    rw [if_pos ha]
    refine ⟨nofun, fun h => ?_⟩
    cases h <;> omega
  | case4 a b cs ha hbroken =>
    unfold hashBytes
    rw [if_neg ha, if_pos hbroken]
    refine ⟨fun _ => ?_, fun _ => rfl⟩
    have hapos := a.utf8Size_pos
    have hbpos := b.utf8Size_pos
    by_cases h1 : a.utf8Size = 1
    · exact .second h1 (by omega)
    · exact .first (by omega)
  | case5 a b cs ha hsingle hnone =>
    unfold hashBytes
    rw [if_neg ha, if_neg hsingle, hnone]
    refine ⟨nofun, fun h => ?_⟩
    cases h with
    | first hc => omega
    | second _ hb => omega
    | later _ _ hbyte _ =>
      rw [hnone] at hbyte
      cases hbyte
  | case6 a b cs ha hsingle byte hbyte ih =>
    obtain ⟨ha1, hb1⟩ : a.utf8Size = 1 ∧ b.utf8Size = 1 := by omega
    have hrest : Even (utf8Length cs) := by
      have hlength : utf8Length (a :: b :: cs) = utf8Length cs + 2 := by
        change a.utf8Size + (b.utf8Size + utf8Length cs) = _
        omega
      obtain ⟨k, hk⟩ := heven
      exact ⟨k - 1, by omega⟩
    unfold hashBytes
    rw [if_neg ha, if_neg hsingle, hbyte]
    constructor
    · intro h
      exact .later ha1 hb1 hbyte ((ih hrest).1 (map_eq_error h))
    · intro h
      cases h with
      | first hc => omega
      | second _ hb => omega
      | later _ _ _ hcs =>
        dsimp only
        rw [(ih hrest).2 hcs]
        rfl

/-- A text of the right shape is only given up in its hash. -/
theorem ofText?_broken_of_parts {s : String} {left right : List Char} {workchain : Int}
    (hsplit : splitColon? s.toList = some (left, right))
    (hnumber : Numeral.signed? left = some workchain) :
    ofText? s = .error .brokenCharacter ↔ (-128 ≤ workchain ∧ workchain ≤ 127)
      ∧ utf8Length right = 64 ∧ hashBytes right = .error .brokenCharacter := by
  unfold ofText?
  simp only [hsplit, hnumber]
  by_cases hrange : workchain < -128 ∨ 127 < workchain
  · rw [if_pos hrange]
    constructor
    · intro h
      cases h
    · rintro ⟨h, -⟩
      omega
  by_cases hlength : utf8Length right = 64
  · rw [if_neg hrange, if_neg (not_not.2 hlength), bind_eq_error]
    constructor
    · rintro (h | ⟨hash, -, h⟩)
      · exact ⟨by omega, hlength, h⟩
      · split at h <;> cases h
    · rintro ⟨-, -, h⟩
      exact .inl h
  · rw [if_neg hrange, if_pos hlength]
    constructor
    · intro h
      cases h
    · rintro ⟨-, h, -⟩
      exact absurd h hlength

/-- Reading cannot go on exactly at such a chunk, and only if nothing before it is refused. -/
theorem ofText?_broken_iff {s : String} :
    ofText? s = .error .brokenCharacter ↔ CutText s := by
  constructor
  · intro h
    obtain ⟨left, right, hsplit⟩ : ∃ left right, splitColon? s.toList = some (left, right) := by
      unfold ofText? at h
      cases hsplit : splitColon? s.toList with
      | none =>
        rw [hsplit] at h
        cases h
      | some parts => exact ⟨parts.1, parts.2, rfl⟩
    obtain ⟨workchain, hnumber⟩ : ∃ workchain, Numeral.signed? left = some workchain := by
      unfold ofText? at h
      cases hnumber : Numeral.signed? left with
      | none =>
        simp only [hsplit, hnumber] at h
        cases h
      | some workchain => exact ⟨workchain, rfl⟩
    obtain ⟨hrange, hlength, hhash⟩ := (ofText?_broken_of_parts hsplit hnumber).1 h
    refine ⟨left, right, workchain, hsplit, hnumber, hrange, hlength, ?_⟩
    exact (hashBytes_broken_iff right ⟨32, hlength⟩).1 hhash
  · rintro ⟨left, right, workchain, hsplit, hnumber, hrange, hlength, hcut⟩
    refine (ofText?_broken_of_parts hsplit hnumber).2 ⟨hrange, hlength, ?_⟩
    exact (hashBytes_broken_iff right ⟨32, hlength⟩).2 hcut

end Address

/-! ## Expressions -/

/-- The address literals of an expression. -/
def Expr.addresses : Expr → List String
  | address text => [text]
  | neg operand => operand.addresses
  | binary _ lhs rhs => lhs.addresses ++ rhs.addresses
  | int _ | bool _ | string _ | null | const _ => []

namespace EvalError

/-- The error as it is meant to be reported. -/
def reported : EvalError → EvalError
  | brokenAddress text => invalidAddress text
  | e => e

/-- An error about an address is about one of these texts, and for the reason that it gives. -/
def Explained (texts : List String) : EvalError → Prop
  | brokenAddress text => text ∈ texts ∧ Address.CutText text
  | invalidAddress text => text ∈ texts ∧ ¬Address.CutText text
  | _ => True

theorem Explained.mono {texts texts' : List String} {e : EvalError} (h : e.Explained texts)
    (hsub : texts ⊆ texts') : e.Explained texts' := by
  cases e with
  | brokenAddress text => exact ⟨hsub h.1, h.2⟩
  | invalidAddress text => exact ⟨hsub h.1, h.2⟩
  | _ => trivial

section
variable {texts : List String}

theorem explained_addressLiteral (text : String) :
    FailsWith (Explained [text]) (addressLiteral text) := by
  unfold addressLiteral
  split
  · exact failsWith_ok _
  · next hbroken =>
    exact failsWith_error ⟨List.mem_singleton_self _, Address.ofText?_broken_iff.1 hbroken⟩
  · next e hne herror =>
    refine failsWith_error ⟨List.mem_singleton_self _, fun hcut => hne ?_⟩
    rw [Address.ofText?_broken_iff.2 hcut] at herror
    exact (Except.error.inj herror).symm

theorem explained_bounded (v : Int) : FailsWith (Explained texts) (bounded v) := by
  unfold bounded
  split
  · exact failsWith_ok _
  · exact failsWith_error trivial

theorem explained_apply (op : BinaryOp) (a b : Int) :
    FailsWith (Explained texts) (op.apply a b) := by
  fun_cases BinaryOp.apply op a b with
  | case4 | case7 => exact failsWith_error trivial
  | case1 | case2 | case3 | case5 | case6 | case8 | case9 => exact failsWith_ok _

theorem explained_expectInt (v : ConstValue) : FailsWith (Explained texts) v.expectInt := by
  cases v with
  | int v => exact failsWith_ok _
  | _ => exact failsWith_error trivial

theorem explained_check (v : ConstValue) (ty : FieldType) :
    FailsWith (Explained texts) (v.check ty) := by
  fun_induction ConstValue.check v ty with
  | case2 inner hne ih => exact ih
  | _ => first | exact failsWith_ok _ | exact failsWith_error trivial

theorem explained_headerOfValue (v : ConstValue) :
    FailsWith (Explained texts) (headerOfValue v) := by
  unfold headerOfValue
  split
  · split
    · exact failsWith_ok _
    · exact failsWith_error trivial
  · exact failsWith_error trivial

end

end EvalError

open EvalError in
theorem Expr.explained_fold (env : ConstEnv) (x : Expr) :
    FailsWith (Explained x.addresses) (x.fold env) := by
  induction x with
  | address text => exact explained_addressLiteral text
  | int v => exact (explained_bounded v).map
  | bool _ | string _ | null => exact failsWith_ok _
  | const name =>
    unfold fold
    split
    · exact failsWith_ok _
    · exact failsWith_error trivial
  | neg operand ih =>
    exact ih.bind fun v => (explained_expectInt v).bind fun v => (explained_bounded (-v)).map
  | binary op lhs rhs ihl ihr =>
    have hl := ihl.mono fun e he => he.mono (List.subset_append_left lhs.addresses rhs.addresses)
    have hr := ihr.mono fun e he => he.mono (List.subset_append_right lhs.addresses rhs.addresses)
    refine hl.bind fun a => (explained_expectInt a).bind fun a => ?_
    refine hr.bind fun b => (explained_expectInt b).bind fun b => ?_
    exact ((explained_apply op a b).bind explained_bounded).map

open EvalError in
theorem Expr.explained_evaluate (x : Expr) (ty : FieldType) (env : ConstEnv) :
    FailsWith (Explained x.addresses) (x.evaluate ty env) :=
  (x.explained_fold env).bind fun v => explained_check v ty

/-! ## Stores -/

/-- The address literals of a default. -/
def Field.addresses (f : Field) : List String := f.default.elim [] Expr.addresses

/-- The address literals of a record type. -/
def RecordType.addresses (t : RecordType) : List String :=
  t.constants.flatMap (·.expr.addresses)
    ++ (t.allFields.flatMap Field.addresses ++ t.header.elim [] Expr.addresses)

/-- The address literals of a store. -/
def TypeStore.addresses (s : TypeStore) : List String :=
  s.constants.flatMap (·.expr.addresses) ++ s.types.flatMap RecordType.addresses

section
open EvalError

theorem explained_evaluateConstants (cs : List Constant) : ∀ env : ConstEnv,
    FailsWith (Explained (cs.flatMap (·.expr.addresses)))
      (evaluateConstants Expr.evaluate env cs).2 := by
  induction cs with
  | nil => exact fun env => failsWith_ok env
  | cons c cs ih =>
    intro env
    rw [List.flatMap_cons]
    unfold evaluateConstants
    cases hc : Expr.evaluate c.expr c.type env with
    | error e =>
      have he := c.expr.explained_evaluate c.type env e hc
      exact failsWith_error (he.mono (List.subset_append_left _ _))
    | ok v => exact (ih _).mono fun e he => he.mono (List.subset_append_right _ _)

theorem explained_evaluateDefaults (env : ConstEnv) (fields : List Field) :
    FailsWith (Explained (fields.flatMap Field.addresses))
      (evaluateDefaults Expr.evaluate env fields).2 := by
  induction fields with
  | nil => exact failsWith_ok ()
  | cons f fields ih =>
    have ih := ih.mono fun e he => he.mono (List.subset_append_right f.addresses _)
    rw [List.flatMap_cons]
    unfold evaluateDefaults
    cases hdefault : f.default with
    | none => exact ih
    | some x =>
      dsimp only
      cases hx : Expr.evaluate x f.type env with
      | error e =>
        have he := x.explained_evaluate f.type env e hx
        have hsame : f.addresses = x.addresses := by
          rw [Field.addresses, hdefault, Option.elim_some]
        exact failsWith_error (he.mono (hsame ▸ List.subset_append_left _ _))
      | ok v => exact ih

namespace RecordType

theorem explained_evaluateFields (env : ConstEnv) (t : RecordType) :
    FailsWith (Explained (t.allFields.flatMap Field.addresses))
      (t.evaluateFields Expr.evaluate env).2 := by
  rw [allFields, List.flatMap_append]
  have hfields := explained_evaluateDefaults env t.fields
  unfold evaluateFields
  rcases heval : evaluateDefaults Expr.evaluate env t.fields with ⟨fields, e | ⟨⟩⟩
  · exact failsWith_error ((hfields e (congrArg Prod.snd heval)).mono (List.subset_append_left _ _))
  · cases t.init with
    | none => exact failsWith_ok ()
    | some params =>
      exact (explained_evaluateDefaults env params).mono fun e he =>
        he.mono (List.subset_append_right _ _)

theorem explained_evaluateHeader (env : ConstEnv) (t : RecordType) :
    FailsWith (Explained (t.header.elim [] Expr.addresses))
      (t.evaluateHeader Expr.evaluate env).2 := by
  unfold evaluateHeader
  cases t.header with
  | none => exact failsWith_ok ()
  | some x =>
    have hx := (x.explained_evaluate (.int (.uint 32)) env).bind explained_headerOfValue
    dsimp only
    cases hvalue : Expr.evaluate x (.int (.uint 32)) env >>= headerOfValue with
    | error e => exact failsWith_error (hx e hvalue)
    | ok header => exact failsWith_ok ()

theorem header_evaluateFields (ev : Evaluator) (env : ConstEnv) (t : RecordType) :
    (t.evaluateFields ev env).1.header = t.header := by
  obtain ⟨fields, init, h⟩ := t.exists_evaluateFields ev env
  rw [h]

theorem explained_evaluate (globals : ConstEnv) (t : RecordType) :
    FailsWith (Explained t.addresses) (t.evaluate Expr.evaluate globals).2 := by
  have hconstants := explained_evaluateConstants t.constants globals
  unfold evaluate addresses
  rcases heval : evaluateConstants Expr.evaluate globals t.constants with ⟨constants, e | env⟩
  · have hfound := hconstants e (congrArg Prod.snd heval)
    exact failsWith_error (hfound.mono (List.subset_append_left _ _))
  · have hfields := explained_evaluateFields env { t with constants }
    have hheader := header_evaluateFields Expr.evaluate env { t with constants }
    dsimp only
    rcases heval' : evaluateFields Expr.evaluate env { t with constants } with ⟨t', e | ⟨⟩⟩
    · refine failsWith_error ((hfields e (congrArg Prod.snd heval')).mono ?_)
      exact List.subset_append_of_subset_right _ (List.subset_append_left _ _)
    · rw [heval'] at hheader
      refine (explained_evaluateHeader env t').mono fun e he => he.mono ?_
      rw [show t'.header = t.header from hheader]
      exact List.subset_append_of_subset_right _ (List.subset_append_right _ _)

end RecordType

theorem explained_evaluateTypes (globals : ConstEnv) (ts : List RecordType) :
    FailsWith (Explained (ts.flatMap RecordType.addresses))
      (evaluateTypes Expr.evaluate globals ts).2 := by
  induction ts with
  | nil => exact failsWith_ok ()
  | cons t ts ih =>
    have ht := t.explained_evaluate globals
    rw [List.flatMap_cons]
    unfold evaluateTypes
    rcases heval : t.evaluate Expr.evaluate globals with ⟨t', e | ⟨⟩⟩
    · exact failsWith_error ((ht e (congrArg Prod.snd heval)).mono (List.subset_append_left _ _))
    · exact ih.mono fun e he => he.mono (List.subset_append_right _ _)

theorem TypeStore.explained_evaluate (s : TypeStore) :
    FailsWith (Explained s.addresses) (s.evaluate Expr.evaluate).2 := by
  have hconstants := explained_evaluateConstants s.constants []
  unfold evaluate addresses
  rcases heval : evaluateConstants Expr.evaluate [] s.constants with ⟨constants, e | globals⟩
  · have hfound := hconstants e (congrArg Prod.snd heval)
    exact failsWith_error (hfound.mono (List.subset_append_left _ _))
  · exact ((explained_evaluateTypes globals s.types).map).mono fun e he =>
      he.mono (List.subset_append_right _ _)

end

/-! ## Reported errors -/

/-- Evaluation that reports every address literal that it cannot read as invalid. -/
def Evaluator.reported (ev : Evaluator) : Evaluator :=
  fun e ty env => (ev e ty env).mapError EvalError.reported

/-- The same, with the error as it is meant to be reported. -/
def report {α β : Type} (r : α × Except EvalError β) : α × Except EvalError β :=
  (r.1, r.2.mapError EvalError.reported)

section
variable (ev : Evaluator)

theorem reported_apply (x : Expr) (ty : FieldType) (env : ConstEnv) :
    ev.reported x ty env = (ev x ty env).mapError EvalError.reported := rfl

theorem evaluateConstants_reported (cs : List Constant) : ∀ env : ConstEnv,
    evaluateConstants ev.reported env cs = report (evaluateConstants ev env cs) := by
  induction cs with
  | nil => exact fun _ => rfl
  | cons c cs ih =>
    intro env
    rw [evaluateConstants, evaluateConstants, reported_apply]
    cases ev c.expr c.type env with
    | error e => rfl
    | ok v =>
      simp only [Except.mapError, ih]
      rfl

theorem evaluateDefaults_reported (env : ConstEnv) (fields : List Field) :
    evaluateDefaults ev.reported env fields = report (evaluateDefaults ev env fields) := by
  induction fields with
  | nil => rfl
  | cons f fields ih =>
    rw [evaluateDefaults, evaluateDefaults]
    cases f.default with
    | none =>
      simp only [ih]
      rfl
    | some x =>
      simp only [reported_apply]
      cases ev x f.type env with
      | error e => rfl
      | ok v =>
        simp only [Except.mapError, ih]
        rfl

namespace RecordType

theorem evaluateFields_reported (env : ConstEnv) (t : RecordType) :
    t.evaluateFields ev.reported env = report (t.evaluateFields ev env) := by
  unfold evaluateFields
  rw [evaluateDefaults_reported]
  rcases evaluateDefaults ev env t.fields with ⟨fields, e | ⟨⟩⟩
  · rfl
  · cases t.init with
    | none => rfl
    | some params =>
      simp only [evaluateDefaults_reported]
      rfl

theorem evaluateHeader_reported (env : ConstEnv) (t : RecordType) :
    t.evaluateHeader ev.reported env = report (t.evaluateHeader ev env) := by
  unfold evaluateHeader
  cases t.header with
  | none => rfl
  | some x =>
    have hheader (v : ConstValue) :
        headerOfValue v = (headerOfValue v).mapError EvalError.reported := by
      unfold headerOfValue
      split
      · split <;> rfl
      · rfl
    have hboth : (ev.reported x (.int (.uint 32)) env >>= headerOfValue) =
        (ev x (.int (.uint 32)) env >>= headerOfValue).mapError EvalError.reported := by
      rw [reported_apply]
      cases ev x (.int (.uint 32)) env with
      | error e => rfl
      | ok v => exact hheader v
    simp only [hboth]
    cases ev x (.int (.uint 32)) env >>= headerOfValue <;> rfl

theorem evaluate_reported (globals : ConstEnv) (t : RecordType) :
    t.evaluate ev.reported globals = report (t.evaluate ev globals) := by
  unfold evaluate
  rw [evaluateConstants_reported]
  rcases evaluateConstants ev globals t.constants with ⟨constants, e | env⟩
  · rfl
  · simp only [report, Except.mapError, evaluateFields_reported]
    rcases evaluateFields ev env { t with constants } with ⟨t', e | ⟨⟩⟩
    · rfl
    · exact evaluateHeader_reported ev env t'

end RecordType

theorem evaluateTypes_reported (globals : ConstEnv) (ts : List RecordType) :
    evaluateTypes ev.reported globals ts = report (evaluateTypes ev globals ts) := by
  induction ts with
  | nil => rfl
  | cons t ts ih =>
    rw [evaluateTypes, evaluateTypes, RecordType.evaluate_reported]
    rcases t.evaluate ev globals with ⟨t', e | ⟨⟩⟩
    · rfl
    · simp only [report, Except.mapError, ih]

namespace TypeStore

variable (s : TypeStore)

theorem evaluate_reported : s.evaluate ev.reported = report (s.evaluate ev) := by
  unfold evaluate
  rw [evaluateConstants_reported]
  rcases evaluateConstants ev [] s.constants with ⟨constants, e | globals⟩
  · rfl
  · simp only [report, Except.mapError, evaluateTypes_reported]
    refine Prod.ext rfl ?_
    dsimp only
    cases (evaluateTypes ev globals s.types).2 <;> rfl

end TypeStore

end

end CellPack
