import Mathlib
import CellPack.Expr.Eval
import CellPack.Proofs.Bits
import CellPack.Proofs.Steps
/-!
# Constant folding is exact

`Expr.Means` says what an expression stands for over the unbounded integers, and knows no range.
`Expr.Admissible` says that every literal, name and operation of an expression is one that
evaluation takes. The main result is `Expr.evaluate_eq_ok_iff`: an expression has a value of a type
exactly if it is admissible and what it stands for belongs to the type.
-/

namespace CellPack

/-! ## Operations over the integers -/

namespace TwosComplement

theorem bitAnd_eq_land (a b : Int) : bitAnd a b = a.land b := by
  cases a <;> cases b <;> rfl

theorem bitOr_eq_lor (a b : Int) : bitOr a b = a.lor b := by
  cases a <;> cases b <;> rfl

theorem testBit_bitAnd (a b : Int) (i : Nat) :
    (bitAnd a b).testBit i = (a.testBit i && b.testBit i) := by
  rw [bitAnd_eq_land, Int.testBit_land]

theorem testBit_bitOr (a b : Int) (i : Nat) :
    (bitOr a b).testBit i = (a.testBit i || b.testBit i) := by
  rw [bitOr_eq_lor, Int.testBit_lor]

/-- No natural number has the complementary bits of another: one of the two has infinitely many. -/
theorem exists_testBit_eq (m n : Nat) : ∃ i, m.testBit i = n.testBit i := by
  refine ⟨m + n, ?_⟩
  have hzero {k : Nat} (hk : k ≤ m + n) : k.testBit (m + n) = false :=
    Nat.testBit_lt_two_pow (k.lt_two_pow_self.trans_le (Nat.pow_le_pow_right two_pos hk))
  rw [hzero (Nat.le_add_right m n), hzero (Nat.le_add_left n m)]

/-- An integer is determined by its infinite two's complement. -/
theorem eq_of_testBit_eq {a b : Int} (h : ∀ i, a.testBit i = b.testBit i) : a = b := by
  cases a with
  | ofNat m =>
    cases b with
    | ofNat n => exact congrArg Int.ofNat (Nat.eq_of_testBit_eq h)
    | negSucc n =>
      obtain ⟨i, hi⟩ := exists_testBit_eq m n
      have hi' : m.testBit i = !n.testBit i := h i
      rw [hi] at hi'
      simp at hi'
  | negSucc m =>
    cases b with
    | ofNat n =>
      obtain ⟨i, hi⟩ := exists_testBit_eq m n
      have hi' : (!m.testBit i) = n.testBit i := h i
      rw [hi] at hi'
      simp at hi'
    | negSucc n =>
      refine congrArg Int.negSucc (Nat.eq_of_testBit_eq fun i => ?_)
      have hi : (!m.testBit i) = !n.testBit i := h i
      simpa using hi

end TwosComplement

/-- A division that rounds down gives the floor of the quotient. -/
theorem fdiv_eq_floor (a b : Int) : a.fdiv b = ⌊(a / b : ℚ)⌋ := by
  have hpos (a : Int) (n : Nat) : a.fdiv n = ⌊(a / n : ℚ)⌋ := by
    rw [Rat.floor_intCast_div_natCast, Int.fdiv_eq_ediv_of_nonneg a (Int.natCast_nonneg n)]
  obtain ⟨n, rfl | rfl⟩ := b.eq_nat_or_neg
  · exact_mod_cast hpos a n
  · rw [← Int.neg_fdiv_neg, neg_neg, hpos]
    push_cast
    rw [div_neg, neg_div]

namespace BinaryOp

/-- What an operation gives over the integers. -/
def Gives (op : BinaryOp) (a b c : Int) : Prop :=
  match op with
  | add => c = a + b
  | sub => c = a - b
  | mul => c = a * b
  | div => b ≠ 0 ∧ c = ⌊(a / b : ℚ)⌋
  | shl => 0 ≤ b ∧ c = a * 2 ^ b.toNat
  | bitOr => ∀ i, c.testBit i = (a.testBit i || b.testBit i)
  | bitAnd => ∀ i, c.testBit i = (a.testBit i && b.testBit i)

/-- The second operands that evaluation takes. -/
def Takes (op : BinaryOp) (b : Int) : Prop :=
  match op with
  | div => b ≠ 0
  | shl => 0 ≤ b ∧ b ≤ 257
  | add | sub | mul | bitOr | bitAnd => True

variable {op : BinaryOp} {a b c : Int}

theorem Gives.unique {c' : Int} (h : op.Gives a b c) (h' : op.Gives a b c') : c = c' := by
  cases op with
  | add | sub | mul => exact h.trans h'.symm
  | div | shl => exact h.2.trans h'.2.symm
  | bitOr | bitAnd => exact TwosComplement.eq_of_testBit_eq fun i => (h i).trans (h' i).symm

theorem gives_of_apply (h : op.apply a b = .ok c) : op.Takes b ∧ op.Gives a b c := by
  cases op with
  | add | sub | mul => exact ⟨trivial, (Except.ok.inj h).symm⟩
  | div =>
    simp only [apply] at h
    split at h
    · cases h
    · next hb => exact ⟨hb, hb, (Except.ok.inj h).symm.trans (fdiv_eq_floor a b)⟩
  | shl =>
    simp only [apply] at h
    split at h
    · next hb => exact ⟨hb, hb.1, (Except.ok.inj h).symm.trans (Int.shiftLeft_eq a b.toNat)⟩
    · cases h
  | bitOr =>
    cases h
    exact ⟨trivial, TwosComplement.testBit_bitOr a b⟩
  | bitAnd =>
    cases h
    exact ⟨trivial, TwosComplement.testBit_bitAnd a b⟩

theorem exists_apply (a : Int) (h : op.Takes b) : ∃ c, op.apply a b = .ok c := by
  cases op with
  | add | sub | mul | bitOr | bitAnd => exact ⟨_, rfl⟩
  | div => exact ⟨_, if_neg h⟩
  | shl => exact ⟨_, if_pos h⟩

/-- The computed result of an operation is the one over the integers, if its operand is taken. -/
theorem apply_eq_ok_iff : op.apply a b = .ok c ↔ op.Takes b ∧ op.Gives a b c := by
  refine ⟨gives_of_apply, fun ⟨htakes, hgives⟩ => ?_⟩
  obtain ⟨c', hc'⟩ := exists_apply a htakes
  rw [hc', hgives.unique (gives_of_apply hc').2]

end BinaryOp

/-! ## Ranges -/

namespace IntFormat

/-- The integers of a format: those with a two's complement, or with binary digits, of its width. -/
def Holds : IntFormat → Int → Prop
  | int n, v => -2 ^ n ≤ 2 * v ∧ 2 * v < 2 ^ n
  | uint n, v => 0 ≤ v ∧ v < 2 ^ n
  | varInt w, v => -2 ^ (8 * w.maxBytes) ≤ 2 * v ∧ 2 * v < 2 ^ (8 * w.maxBytes)
  | varUint w, v => 0 ≤ v ∧ v < 2 ^ (8 * w.maxBytes)

theorem fitsSigned_iff_double {n : Nat} {v : Int} :
    fitsSigned n v = true ↔ -2 ^ n ≤ 2 * v ∧ 2 * v < 2 ^ n := by
  rcases Nat.eq_zero_or_pos n with rfl | hn
  · have hzero : fitsSigned 0 v = true ↔ v = 0 := by simp [fitsSigned]
    rw [hzero]
    omega
  · have hdouble : (2 : Int) ^ n = 2 * 2 ^ (n - 1) := by
      rw [← pow_succ', Nat.sub_add_cancel hn]
    rw [fitsSigned_iff hn, hdouble]
    omega

theorem fits_iff_holds {f : IntFormat} {v : Int} : f.fits v = true ↔ f.Holds v := by
  cases f with
  | int n => exact fitsSigned_iff_double
  | varInt w => exact fitsSigned_iff_double
  | uint n => exact fitsUnsigned_iff
  | varUint w => exact fitsUnsigned_iff

end IntFormat

/-- The range of constant expressions. -/
def InRange (v : Int) : Prop := -2 ^ 256 ≤ v ∧ v < 2 ^ 256

theorem fits_widest_iff {v : Int} : IntFormat.widest.fits v = true ↔ InRange v :=
  IntFormat.fitsSigned_iff (by decide)

theorem bounded_of_inRange {v : Int} (h : InRange v) : bounded v = .ok v :=
  if_pos (fits_widest_iff.2 h)

theorem bounded_eq_ok_iff {v w : Int} : bounded v = .ok w ↔ InRange v ∧ w = v := by
  constructor
  · intro h
    unfold bounded at h
    split at h
    · next hv => exact ⟨fits_widest_iff.1 hv, (Except.ok.inj h).symm⟩
    · cases h
  · rintro ⟨hv, rfl⟩
    exact bounded_of_inRange hv

/-- An integer is taken as a value if it is in range, and as it is. -/
theorem int_bounded_eq_ok_iff {a : Int} {v : ConstValue} :
    ConstValue.int <$> bounded a = .ok v ↔ InRange a ∧ v = .int a := by
  constructor
  · intro h
    obtain ⟨b, hb, rfl⟩ := map_eq_ok h
    obtain ⟨ha, rfl⟩ := bounded_eq_ok_iff.1 hb
    exact ⟨ha, rfl⟩
  · rintro ⟨ha, rfl⟩
    rw [bounded_of_inRange ha]
    rfl

/-! ## Expressions -/

namespace Expr

/-- What an expression stands for, with operations over the unbounded integers. -/
inductive Means (env : ConstEnv) : Expr → ConstValue → Prop where
  | int (v : Int) : Means env (.int v) (.int v)
  | bool (b : Bool) : Means env (.bool b) (.bool b)
  | string (s : String) : Means env (.string s) (.string s)
  | null : Means env .null .null
  | address {text : String} {a : Address} (h : Address.ofText? text = .ok a) :
    Means env (.address text) (.address a)
  | const {name : String} {v : ConstValue} (h : Table.get? env name = some v) :
    Means env (.const name) v
  | neg {x : Expr} {a : Int} (hx : Means env x (.int a)) : Means env (.neg x) (.int (-a))
  | binary {op : BinaryOp} {x y : Expr} {a b c : Int} (hx : Means env x (.int a))
    (hy : Means env y (.int b)) (h : op.Gives a b c) : Means env (.binary op x y) (.int c)

/-- The expression and the operands in it, at any depth. -/
def subterms : Expr → List Expr
  | neg x => neg x :: x.subterms
  | binary op x y => binary op x y :: (x.subterms ++ y.subterms)
  | x => [x]

/-- Literals and results in range, names with a value, readable addresses, and operations on
integers with an operand that they take. -/
def Proper (env : ConstEnv) : Expr → Prop
  | int v => InRange v
  | bool _ | string _ | null => True
  | address text => ∃ a, Address.ofText? text = .ok a
  | const name => ∃ v, Table.get? env name = some v
  | neg x => ∃ a, x.Means env (.int a) ∧ InRange (-a)
  | binary op x y => ∃ a b c, x.Means env (.int a) ∧ y.Means env (.int b)
    ∧ op.Takes b ∧ op.Gives a b c ∧ InRange c

/-- Everything in the expression is proper. -/
def Admissible (env : ConstEnv) (x : Expr) : Prop := ∀ y ∈ x.subterms, y.Proper env

variable {env : ConstEnv} {x y : Expr} {v w : ConstValue}

theorem Means.unique (h : x.Means env v) (h' : x.Means env w) : v = w := by
  induction h generalizing w with
  | int | bool | string | null =>
    cases h'
    rfl
  | address h =>
    cases h' with
    | address h' => rw [Except.ok.inj (h.symm.trans h')]
  | const h =>
    cases h' with
    | const h' => exact Option.some.inj (h.symm.trans h')
  | neg hx ih =>
    cases h' with
    | neg hx' => rw [ConstValue.int.inj (ih hx')]
  | binary hx hy h ihx ihy =>
    cases h' with
    | binary hx' hy' h' =>
      obtain rfl := ConstValue.int.inj (ihx hx')
      obtain rfl := ConstValue.int.inj (ihy hy')
      rw [h.unique h']

theorem admissible_leaf_iff (h : x.subterms = [x]) : x.Admissible env ↔ x.Proper env := by
  rw [Admissible, h]
  exact List.forall_mem_singleton

theorem admissible_neg_iff :
    (neg x).Admissible env ↔ (neg x).Proper env ∧ x.Admissible env :=
  List.forall_mem_cons

theorem admissible_binary_iff {op : BinaryOp} : (binary op x y).Admissible env ↔
    (binary op x y).Proper env ∧ x.Admissible env ∧ y.Admissible env :=
  List.forall_mem_cons.trans (and_congr_right fun _ => List.forall_mem_append)

theorem addressLiteral_eq_ok_iff {text : String} :
    addressLiteral text = .ok v ↔ ∃ a, Address.ofText? text = .ok a ∧ v = .address a := by
  unfold addressLiteral
  cases Address.ofText? text with
  | ok a => exact ⟨fun h => ⟨a, rfl, (Except.ok.inj h).symm⟩, by rintro ⟨_, ⟨⟩, rfl⟩; rfl⟩
  | error e => cases e <;> exact ⟨nofun, by rintro ⟨_, ⟨⟩, -⟩⟩

theorem expectInt_eq_ok_iff {a : Int} : v.expectInt = .ok a ↔ v = .int a := by
  cases v <;> simp [ConstValue.expectInt]

theorem fold_neg_eq_ok_iff : (neg x).fold env = .ok v ↔
    ∃ a, x.fold env = .ok (.int a) ∧ InRange (-a) ∧ v = .int (-a) := by
  rw [fold]
  simp only [bind_eq_ok, expectInt_eq_ok_iff, int_bounded_eq_ok_iff]
  constructor
  · rintro ⟨-, hx, a, rfl, ha⟩
    exact ⟨a, hx, ha⟩
  · rintro ⟨a, hx, ha⟩
    exact ⟨.int a, hx, a, rfl, ha⟩

theorem fold_binary_eq_ok_iff {op : BinaryOp} : (binary op x y).fold env = .ok v ↔
    ∃ a b c, x.fold env = .ok (.int a) ∧ y.fold env = .ok (.int b)
      ∧ op.Takes b ∧ op.Gives a b c ∧ InRange c ∧ v = .int c := by
  rw [fold]
  simp only [bind_eq_ok, expectInt_eq_ok_iff]
  constructor
  · rintro ⟨-, hx, a, rfl, -, hy, b, rfl, h⟩
    obtain ⟨r, hr, rfl⟩ := map_eq_ok h
    obtain ⟨c, hc, hbounded⟩ := bind_eq_ok.1 hr
    obtain ⟨hrange, rfl⟩ := bounded_eq_ok_iff.1 hbounded
    obtain ⟨htakes, hgives⟩ := BinaryOp.apply_eq_ok_iff.1 hc
    exact ⟨a, b, r, hx, hy, htakes, hgives, hrange, rfl⟩
  · rintro ⟨a, b, c, hx, hy, htakes, hgives, hrange, rfl⟩
    refine ⟨.int a, hx, a, rfl, .int b, hy, b, rfl, ?_⟩
    rw [BinaryOp.apply_eq_ok_iff.2 ⟨htakes, hgives⟩]
    exact int_bounded_eq_ok_iff.2 ⟨hrange, rfl⟩

/-- An admissible expression stands for exactly one value. -/
theorem Admissible.existsUnique_means (h : x.Admissible env) : ∃! v, x.Means env v := by
  have hproper : x.Proper env := by
    refine h x ?_
    cases x <;> exact List.mem_cons_self
  suffices hexists : ∃ v, x.Means env v by
    obtain ⟨v, hv⟩ := hexists
    exact ⟨v, hv, fun w hw => hw.unique hv⟩
  cases x with
  | int a => exact ⟨_, .int a⟩
  | bool b => exact ⟨_, .bool b⟩
  | string s => exact ⟨_, .string s⟩
  | null => exact ⟨_, .null⟩
  | address text =>
    obtain ⟨a, ha⟩ := hproper
    exact ⟨_, .address ha⟩
  | const name =>
    obtain ⟨v, hv⟩ := hproper
    exact ⟨v, .const hv⟩
  | neg x =>
    obtain ⟨a, ha, -⟩ := hproper
    exact ⟨_, .neg ha⟩
  | binary op x y =>
    obtain ⟨a, b, c, ha, hb, -, hgives, -⟩ := hproper
    exact ⟨_, .binary ha hb hgives⟩

/-- Folding succeeds exactly on admissible expressions, with what they stand for. -/
theorem fold_eq_ok_iff : x.fold env = .ok v ↔ x.Admissible env ∧ x.Means env v := by
  induction x generalizing v with
  | int a =>
    rw [admissible_leaf_iff rfl, fold, int_bounded_eq_ok_iff]
    exact and_congr_right fun _ => ⟨fun hv => hv ▸ .int a, fun h => h.unique (.int a)⟩
  | bool b =>
    rw [admissible_leaf_iff rfl]
    exact ⟨fun h => ⟨trivial, Except.ok.inj h ▸ .bool b⟩, fun h => h.2.unique (.bool b) ▸ rfl⟩
  | string s =>
    rw [admissible_leaf_iff rfl]
    exact ⟨fun h => ⟨trivial, Except.ok.inj h ▸ .string s⟩, fun h => h.2.unique (.string s) ▸ rfl⟩
  | null =>
    rw [admissible_leaf_iff rfl]
    exact ⟨fun h => ⟨trivial, Except.ok.inj h ▸ .null⟩, fun h => h.2.unique .null ▸ rfl⟩
  | address text =>
    rw [admissible_leaf_iff rfl, fold, addressLiteral_eq_ok_iff]
    constructor
    · rintro ⟨a, ha, rfl⟩
      exact ⟨⟨a, ha⟩, .address ha⟩
    · rintro ⟨-, hmeans⟩
      cases hmeans with
      | address ha => exact ⟨_, ha, rfl⟩
  | const name =>
    rw [admissible_leaf_iff rfl, fold]
    constructor
    · intro h
      split at h
      · next w hw =>
        cases h
        exact ⟨⟨_, hw⟩, .const hw⟩
      · cases h
    · rintro ⟨-, hmeans⟩
      cases hmeans with
      | const hv => rw [hv]
  | neg x ih =>
    rw [admissible_neg_iff, fold_neg_eq_ok_iff]
    simp only [ih]
    constructor
    · rintro ⟨a, ⟨hx, hmeans⟩, hrange, rfl⟩
      exact ⟨⟨⟨a, hmeans, hrange⟩, hx⟩, .neg hmeans⟩
    · rintro ⟨⟨⟨a, hmeans, hrange⟩, hx⟩, hv⟩
      exact ⟨a, ⟨hx, hmeans⟩, hrange, hv.unique (.neg hmeans)⟩
  | binary op x y ihx ihy =>
    rw [admissible_binary_iff, fold_binary_eq_ok_iff]
    simp only [ihx, ihy]
    constructor
    · rintro ⟨a, b, c, ⟨hx, ha⟩, ⟨hy, hb⟩, htakes, hgives, hrange, rfl⟩
      exact ⟨⟨⟨a, b, c, ha, hb, htakes, hgives, hrange⟩, hx, hy⟩, .binary ha hb hgives⟩
    · rintro ⟨⟨⟨a, b, c, ha, hb, htakes, hgives, hrange⟩, hx, hy⟩, hv⟩
      exact ⟨a, b, c, ⟨hx, ha⟩, ⟨hy, hb⟩, htakes, hgives, hrange, hv.unique (.binary ha hb hgives)⟩

end Expr

/-! ## Types -/

namespace FieldType

/-- The values of a type. -/
inductive Admits : FieldType → ConstValue → Prop where
  | int {format : IntFormat} {v : Int} (h : format.Holds v) : Admits (.int format) (.int v)
  | bool (b : Bool) : Admits .bool (.bool b)
  | string (s : String) : Admits .string (.string s)
  | address (a : Address) : Admits .address (.address a)
  | none (inner : FieldType) : Admits (.optional inner) .null
  | some {inner : FieldType} {v : ConstValue} (h : Admits inner v) : Admits (.optional inner) v
  | emptyMap (key value : FieldType) : Admits (.map key value) .null

end FieldType

namespace ConstValue

variable {v w : ConstValue} {ty : FieldType}

theorem check_of_admits (h : ty.Admits v) : v.check ty = .ok v := by
  induction h with
  | int h => exact if_pos (IntFormat.fits_iff_holds.2 h)
  | bool | string | address | emptyMap => rfl
  | none inner => exact if_pos rfl
  | @some inner v h ih =>
    rw [check]
    split
    · rfl
    · exact ih

theorem admits_of_check (h : v.check ty = .ok w) : ty.Admits v := by
  induction ty with
  | optional inner ih =>
    rw [check] at h
    split at h
    · next hv => exact hv ▸ .none inner
    · exact .some (ih h)
  | int format =>
    cases v with
    | int a =>
      by_cases hfits : format.fits a = true
      · exact .int (IntFormat.fits_iff_holds.1 hfits)
      · exact absurd (h.symm.trans (if_neg hfits)) nofun
    | _ => cases h
  | bool =>
    cases v with
    | bool b => exact .bool b
    | _ => cases h
  | string =>
    cases v with
    | string s => exact .string s
    | _ => cases h
  | address =>
    cases v with
    | address a => exact .address a
    | _ => cases h
  | map key value =>
    cases v with
    | null => exact .emptyMap key value
    | _ => cases h
  | _ => cases v <;> cases h

/-- A check passes exactly the values of the type, and changes none. -/
theorem check_eq_ok_iff : v.check ty = .ok w ↔ ty.Admits v ∧ w = v := by
  constructor
  · intro h
    have hadmits := admits_of_check h
    exact ⟨hadmits, Except.ok.inj (h.symm.trans (check_of_admits hadmits))⟩
  · rintro ⟨hadmits, rfl⟩
    exact check_of_admits hadmits

end ConstValue

/-- Half of `-7` is rounded to `-4`, which has one bit in common with `5`. -/
example : (Expr.binary .bitAnd (.binary .div (.int (-7)) (.int 2)) (.int 5)).evaluate
    (.int .widest) [] = .ok (.int 4) := by decide +kernel

end CellPack
