import Mathlib
import CellPack.IntFormat
/-!
# Written numbers and names of formats

A number is read back from its decimal digits, with its sign if it is negative
(`Numeral.grouped?_toString`). The formats that have a name are those of the widths within bounds,
and the name that is written for such a format is one of its names (`IntFormat.ofText?_text`).
-/

namespace CellPack

/-! ## Decimal numbers -/

namespace Numeral

theorem isDigit_of_mem_toDigits {n : Nat} {c : Char} (hc : c ∈ Nat.toDigits 10 n) :
    c.isDigit = true :=
  Nat.isDigit_of_mem_toDigits (by decide) (by decide) hc

theorem nat?_toDigits (n : Nat) : nat? (Nat.toDigits 10 n) = some n := by
  have hdigits : (Nat.toDigits 10 n).all Char.isDigit = true :=
    List.all_eq_true.2 fun _ => isDigit_of_mem_toDigits
  rw [nat?, if_pos ⟨Nat.toDigits_ne_nil, hdigits⟩, Nat.ofDigitChars_ten_toDigits]

/-- A written number starts with a digit, which is no sign. -/
theorem toDigits_ne_cons {n : Nat} {c : Char} {cs : List Char} (hc : c.isDigit = false) :
    Nat.toDigits 10 n ≠ c :: cs := by
  intro h
  have hdigit : c.isDigit = true := isDigit_of_mem_toDigits (h ▸ List.mem_cons_self)
  rw [hc] at hdigit
  cases hdigit

theorem unsigned?_toDigits (n : Nat) : unsigned? (Nat.toDigits 10 n) = some n := by
  unfold unsigned?
  split
  · next h => exact absurd h (toDigits_ne_cons rfl)
  · exact nat?_toDigits n

theorem groupedNat?_toDigits (n : Nat) : groupedNat? (Nat.toDigits 10 n) = some n := by
  unfold groupedNat?
  split
  · next h => exact absurd h Nat.toDigits_ne_nil
  · next c cs h =>
    have hplain : ∀ x ∈ c :: cs, x ≠ '_' := by
      rintro x hx rfl
      exact Nat.underscore_not_in_toDigits (h ▸ hx)
    obtain ⟨hc, hcs⟩ := List.forall_mem_cons.1 hplain
    have hfilter : cs.filter (· ≠ '_') = cs :=
      List.filter_eq_self.2 fun x hx => decide_eq_true (hcs x hx)
    rw [if_neg hc, hfilter, ← h, nat?_toDigits]

theorem grouped?_toDigits (n : Nat) : grouped? (Nat.toDigits 10 n) = some (n : Int) := by
  unfold grouped?
  split
  · next h => exact absurd h (toDigits_ne_cons rfl)
  · next h => exact absurd h (toDigits_ne_cons rfl)
  · rw [groupedNat?_toDigits]
    rfl

theorem grouped?_toString (v : Int) : grouped? (toString v).toList = some v := by
  rw [Int.toString_eq_repr]
  cases v with
  | ofNat n =>
    have htext : (Int.repr (.ofNat n)).toList = Nat.toDigits 10 n := Nat.toList_repr
    rw [htext, grouped?_toDigits]
    rfl
  | negSucc n =>
    have htext : (Int.repr (.negSucc n)).toList = '-' :: Nat.toDigits 10 (n + 1) := by
      rw [Int.repr, String.toList_append, Nat.toList_repr]
      rfl
    rw [htext, grouped?, groupedNat?_toDigits]
    rfl

end Numeral

/-! ## Formats of integers -/

namespace IntFormat

theorem width?_eq_some_iff {max n : Nat} {ds : List Char} :
    width? max ds = some n ↔ Numeral.unsigned? ds = some n ∧ n ≠ 0 ∧ n ≤ max := by
  unfold width?
  rw [Option.bind_eq_bind, Option.bind_eq_some_iff]
  constructor
  · rintro ⟨m, hm, h⟩
    split at h
    · cases h
    · cases h
      exact ⟨hm, by omega⟩
  · rintro ⟨hn, hpos, hmax⟩
    refine ⟨n, hn, if_neg ?_⟩
    omega

theorem width?_toDigits {max n : Nat} (h : n ≠ 0 ∧ n ≤ max) :
    width? max (Nat.toDigits 10 n) = some n :=
  width?_eq_some_iff.2 ⟨Numeral.unsigned?_toDigits n, h⟩

/-- The widths that names of formats have. -/
def WidthWithin : IntFormat → Prop
  | int n => n ≠ 0 ∧ n ≤ 257
  | uint n => n ≠ 0 ∧ n ≤ 256
  | varInt _ | varUint _ => True

theorem widthWithin_of_ofText? {text : String} {f : IntFormat} (h : ofText? text = some f) :
    f.WidthWithin := by
  unfold ofText? ofChars? at h
  split at h
  · cases h
    trivial
  · obtain ⟨w, -, rfl⟩ := Option.map_eq_some_iff.1 h
    trivial
  · obtain ⟨w, -, rfl⟩ := Option.map_eq_some_iff.1 h
    trivial
  · obtain ⟨n, hn, rfl⟩ := Option.map_eq_some_iff.1 h
    exact (width?_eq_some_iff.1 hn).2
  · obtain ⟨n, hn, rfl⟩ := Option.map_eq_some_iff.1 h
    exact (width?_eq_some_iff.1 hn).2
  · cases h

theorem toList_append_toString (s : String) (n : Nat) :
    (s ++ toString n).toList = s.toList ++ Nat.toDigits 10 n := by
  rw [String.toList_append, Nat.toString_eq_repr, Nat.toList_repr]

/-- A format within the bounds is found by its name. -/
theorem ofText?_text {f : IntFormat} (hf : f.WidthWithin) : ofText? f.text = some f := by
  cases f with
  | int n =>
    rw [ofText?, text, toList_append_toString]
    exact congrArg (Option.map int) (width?_toDigits hf)
  | uint n =>
    rw [ofText?, text, toList_append_toString]
    exact congrArg (Option.map uint) (width?_toDigits hf)
  | varInt w => cases w <;> rfl
  | varUint w => cases w <;> rfl

end IntFormat

end CellPack
