import Mathlib
import CellPack.Proofs.Evaluation
import CellPack.Proofs.FormatNames
/-!
# Texts of addresses

The text of an address is a decimal number with at most one sign, a colon, and pairs of hexadecimal
digits. Reading takes each such text as the address that it spells, and besides them those that have
plus signs for high digits. Each other text is refused for what is wrong with it, unless a chunk of
its hash ends inside a character (`Address.ofText?_exact`).
-/

namespace CellPack

/-! ## Numbers -/

namespace Numeral

/-- A run of decimal digits with its value. -/
inductive Digits : List Char → Nat → Prop where
  | one {d : Char} (hd : d.isDigit = true) : Digits [d] (d.toNat - 48)
  | snoc {ds : List Char} {n : Nat} {d : Char} (h : Digits ds n) (hd : d.isDigit = true) :
    Digits (ds ++ [d]) (10 * n + (d.toNat - 48))

/-- A run of decimal digits behind at most one sign, with its value. -/
inductive Decimal : List Char → Int → Prop where
  | plain {ds : List Char} {n : Nat} (h : Digits ds n) : Decimal ds n
  | plus {ds : List Char} {n : Nat} (h : Digits ds n) : Decimal ('+' :: ds) n
  | minus {ds : List Char} {n : Nat} (h : Digits ds n) : Decimal ('-' :: ds) (-n)

theorem Digits.isDigit {ds : List Char} {n : Nat} (h : Digits ds n) :
    ∀ d ∈ ds, d.isDigit = true := by
  induction h with
  | one hd => simpa using hd
  | snoc _ hd ih => exact List.forall_mem_append.2 ⟨ih, by simpa using hd⟩

theorem Digits.ne_nil {ds : List Char} {n : Nat} (h : Digits ds n) : ds ≠ [] := by
  cases h <;> simp

theorem Digits.value {ds : List Char} {n : Nat} (h : Digits ds n) :
    n = Nat.ofDigitChars 10 ds 0 := by
  induction h with
  | one hd => simp [Nat.ofDigitChars]
  | snoc _ hd ih =>
    rw [Nat.ofDigitChars_append, ← ih]
    rfl

theorem digits_of_isDigit {ds : List Char} (hne : ds ≠ []) (h : ∀ d ∈ ds, d.isDigit = true) :
    ∃ n, Digits ds n := by
  induction ds using List.reverseRecOn with
  | nil => exact absurd rfl hne
  | append_singleton ds d ih =>
    obtain ⟨hds, hd⟩ := List.forall_mem_append.1 h
    have hd := hd d (List.mem_singleton_self d)
    by_cases hnil : ds = []
    · subst hnil
      exact ⟨_, .one hd⟩
    · obtain ⟨n, hn⟩ := ih hnil hds
      exact ⟨_, .snoc hn hd⟩

theorem nat?_eq_some_iff {ds : List Char} {n : Nat} : nat? ds = some n ↔ Digits ds n := by
  unfold nat?
  constructor
  · intro h
    split at h
    · next hall =>
      cases h
      obtain ⟨n, hn⟩ := digits_of_isDigit hall.1 (List.all_eq_true.1 hall.2)
      exact hn.value ▸ hn
    · cases h
  · intro h
    rw [if_pos ⟨h.ne_nil, List.all_eq_true.2 h.isDigit⟩, ← h.value]

theorem signed?_eq_some_iff {cs : List Char} {v : Int} : signed? cs = some v ↔ Decimal cs v := by
  constructor
  · intro h
    unfold signed? at h
    split at h <;> obtain ⟨n, hn, rfl⟩ := Option.map_eq_some_iff.1 h
    · exact .plus (nat?_eq_some_iff.1 hn)
    · exact .minus (nat?_eq_some_iff.1 hn)
    · exact .plain (nat?_eq_some_iff.1 hn)
  · intro h
    cases h with
    | plus h | minus h =>
      rw [signed?, nat?_eq_some_iff.2 h]
      rfl
    | plain h =>
      -- a digit is no sign
      have hfirst {c : Char} {ds : List Char} (heq : cs = c :: ds) : c.isDigit = true :=
        h.isDigit c (heq ▸ List.mem_cons_self)
      unfold signed?
      split
      · exact absurd (hfirst rfl) (by decide)
      · exact absurd (hfirst rfl) (by decide)
      · rw [nat?_eq_some_iff.2 h]
        rfl

/-- A written number is a decimal number. -/
theorem decimal_toString (v : Int) : Decimal (toString v).toList v := by
  have hdigits (n : Nat) : Digits (Nat.toDigits 10 n) n := nat?_eq_some_iff.1 (nat?_toDigits n)
  rw [Int.toString_eq_repr]
  cases v with
  | ofNat n =>
    have htext : (Int.repr (.ofNat n)).toList = Nat.toDigits 10 n := Nat.toList_repr
    rw [htext]
    exact .plain (hdigits n)
  | negSucc n =>
    have htext : (Int.repr (.negSucc n)).toList = '-' :: Nat.toDigits 10 (n + 1) := by
      rw [Int.repr, String.toList_append, Nat.toList_repr]
      rfl
    rw [htext]
    exact .minus (hdigits (n + 1))

/-- The character is the hexadecimal digit of the value, in one case or the other. -/
def HexDigit (c : Char) (n : Nat) : Prop :=
  n < 16 ∧ (c = Nat.digitChar n ∨ c = (Nat.digitChar n).toUpper)

theorem hexDigit?_eq_some_iff {c : Char} {n : Nat} : hexDigit? c = some n ↔ HexDigit c n := by
  constructor
  · have hascii : ∀ m < 128, ∀ n ∈ hexDigit? (Char.ofNat m), n < 16
        ∧ (Char.ofNat m = Nat.digitChar n ∨ Char.ofNat m = (Nat.digitChar n).toUpper) := by
      decide
    intro h
    have hc : c.toNat < 128 := by
      unfold hexDigit? at h
      simp only [Char.le_def, UInt32.le_iff_toNat_le] at h
      simp only [Char.toNat]
      split_ifs at h with h0 h1 h2
      · exact lt_of_le_of_lt h0.2 (by decide)
      · exact lt_of_le_of_lt h1.2 (by decide)
      · exact lt_of_le_of_lt h2.2 (by decide)
    have hdigit := hascii c.toNat hc n
    rw [Char.ofNat_toNat] at hdigit
    exact hdigit h
  · have hdigits : ∀ n < 16, hexDigit? (Nat.digitChar n) = some n
        ∧ hexDigit? (Nat.digitChar n).toUpper = some n := by decide
    rintro ⟨hn, rfl | rfl⟩
    · exact (hdigits n hn).1
    · exact (hdigits n hn).2

theorem HexDigit.utf8Size {c : Char} {n : Nat} (h : HexDigit c n) : c.utf8Size = 1 := by
  have hsizes : ∀ n < 16, (Nat.digitChar n).utf8Size = 1
      ∧ (Nat.digitChar n).toUpper.utf8Size = 1 := by decide
  obtain ⟨hn, rfl | rfl⟩ := h
  · exact (hsizes n hn).1
  · exact (hsizes n hn).2

end Numeral

/-! ## Addresses -/

namespace Address

open Numeral

/-- Pairs of characters for bytes; `high` says which characters are high digits. -/
inductive Pairs (high : Char → Nat → Prop) : List Char → List UInt8 → Prop where
  | nil : Pairs high [] []
  | cons {a b : Char} {h l : Nat} {cs : List Char} {bytes : List UInt8} (ha : high a h)
    (hb : HexDigit b l) (hcs : Pairs high cs bytes) :
    Pairs high (a :: b :: cs) (UInt8.ofNat (16 * h + l) :: bytes)

/-- The text is the workchain number, a colon, and pairs for the bytes of the hash. -/
def Spells (high : Char → Nat → Prop) (s : String) (a : Address) : Prop :=
  ∃ left right, s.toList = left ++ ':' :: right ∧ Decimal left a.workchain
    ∧ Pairs high right a.hash

/-- A hexadecimal digit, or a plus sign for none. -/
def PlusOrDigit (c : Char) (n : Nat) : Prop := HexDigit c n ∨ c = '+' ∧ n = 0

/-- What is wrong with a text. -/
inductive Refused (s : String) : AddressError → Prop where
  | missingSeparator (h : ':' ∉ s.toList) : Refused s .missingSeparator
  | invalidWorkchain {left right : List Char} (hs : s.toList = left ++ ':' :: right)
    (hcolon : ':' ∉ left) (h : ∀ v, Decimal left v → ¬(-128 ≤ v ∧ v ≤ 127)) :
    Refused s (.invalidWorkchain (String.ofList left))
  | invalidHashLength {left right : List Char} {v : Int} (hs : s.toList = left ++ ':' :: right)
    (hv : Decimal left v) (hrange : -128 ≤ v ∧ v ≤ 127) (h : utf8Length right ≠ 64) :
    Refused s (.invalidHashLength (utf8Length right))
  | invalidHex {left right : List Char} {v : Int} (hs : s.toList = left ++ ':' :: right)
    (hv : Decimal left v) (hrange : -128 ≤ v ∧ v ≤ 127) (hlength : utf8Length right = 64)
    (h : ∀ bytes, ¬Pairs PlusOrDigit right bytes) (huncut : ¬CutsCharacter right) :
    Refused s .invalidHex
  | brokenCharacter {left right : List Char} {v : Int} (hs : s.toList = left ++ ':' :: right)
    (hv : Decimal left v) (hrange : -128 ≤ v ∧ v ≤ 127) (hlength : utf8Length right = 64)
    (h : CutsCharacter right) : Refused s .brokenCharacter

/-! ### Around the colon -/

theorem splitColon?_eq_some_iff {cs left right : List Char} :
    splitColon? cs = some (left, right) ↔ cs = left ++ ':' :: right ∧ ':' ∉ left := by
  induction cs generalizing left with
  | nil => simp [splitColon?]
  | cons c cs ih =>
    unfold splitColon?
    by_cases hc : c = ':'
    · subst hc
      rw [if_pos rfl]
      constructor
      · rintro ⟨⟩
        exact ⟨rfl, List.not_mem_nil⟩
      · rintro ⟨heq, hcolon⟩
        cases left with
        | nil =>
          cases heq
          rfl
        | cons d left =>
          obtain rfl : ':' = d := (List.cons.inj heq).1
          exact absurd List.mem_cons_self hcolon
    · rw [if_neg hc, Option.map_eq_some_iff]
      constructor
      · rintro ⟨⟨l, r⟩, hsplit, heq⟩
        cases heq
        obtain ⟨rfl, hcolon⟩ := ih.1 hsplit
        exact ⟨rfl, List.not_mem_cons_of_ne_of_not_mem (Ne.symm hc) hcolon⟩
      · rintro ⟨heq, hcolon⟩
        cases left with
        | nil => exact absurd (List.cons.inj heq).1 hc
        | cons d left =>
          obtain ⟨rfl, rfl⟩ := List.cons.inj heq
          exact ⟨(left, right), ih.2 ⟨rfl, fun hmem => hcolon (List.mem_cons_of_mem _ hmem)⟩, rfl⟩

theorem splitColon?_eq_none_iff {cs : List Char} : splitColon? cs = none ↔ ':' ∉ cs := by
  induction cs with
  | nil => simp [splitColon?]
  | cons c cs ih =>
    unfold splitColon?
    by_cases hc : c = ':'
    · simp [hc]
    · rw [if_neg hc, Option.map_eq_none_iff, ih, List.mem_cons, or_iff_right (Ne.symm hc)]

theorem colon_not_mem_decimal {left : List Char} {v : Int} (h : Decimal left v) : ':' ∉ left := by
  have hdigits {ds : List Char} {n : Nat} (h : Digits ds n) : ':' ∉ ds :=
    fun hmem => absurd (h.isDigit ':' hmem) (by decide)
  cases h with
  | plain h => exact hdigits h
  | plus h | minus h => exact List.not_mem_cons_of_ne_of_not_mem (by decide) (hdigits h)

/-! ### Pairs -/

theorem Pairs.mono {high high' : Char → Nat → Prop} {cs : List Char} {bytes : List UInt8}
    (h : Pairs high cs bytes) (hsub : ∀ c n, high c n → high' c n) : Pairs high' cs bytes := by
  induction h with
  | nil => exact .nil
  | cons ha hb _ ih => exact .cons (hsub _ _ ha) hb ih

theorem PlusOrDigit.utf8Size {c : Char} {n : Nat} (h : PlusOrDigit c n) : c.utf8Size = 1 := by
  rcases h with h | ⟨rfl, -⟩
  · exact h.utf8Size
  · rfl

theorem Pairs.utf8Length {cs : List Char} {bytes : List UInt8} (h : Pairs PlusOrDigit cs bytes) :
    utf8Length cs = 2 * bytes.length := by
  induction h with
  | nil => rfl
  | @cons a b h l cs bytes ha hb _ ih =>
    have hlength : Address.utf8Length (a :: b :: cs) =
        a.utf8Size + (b.utf8Size + Address.utf8Length cs) := rfl
    rw [hlength, ha.utf8Size, hb.utf8Size, ih, List.length_cons]
    omega

theorem pairByte?_eq_some_iff {a b : Char} {byte : UInt8} : pairByte? a b = some byte ↔
    ∃ h l, PlusOrDigit a h ∧ HexDigit b l ∧ byte = UInt8.ofNat (16 * h + l) := by
  unfold pairByte?
  rw [Option.bind_eq_bind, Option.bind_eq_some_iff]
  by_cases ha : a = '+'
  · subst ha
    have hplus : ∀ h, ¬HexDigit '+' h := fun h hd => by
      rw [← hexDigit?_eq_some_iff] at hd
      cases hd
    constructor
    · rintro ⟨l, hl, hbyte⟩
      rw [if_pos rfl, Option.some.injEq] at hbyte
      refine ⟨0, l, .inr ⟨rfl, rfl⟩, hexDigit?_eq_some_iff.1 hl, ?_⟩
      rw [← hbyte, Nat.mul_zero, Nat.zero_add]
    · rintro ⟨h, l, hh | ⟨-, rfl⟩, hl, rfl⟩
      · exact absurd hh (hplus h)
      · refine ⟨l, hexDigit?_eq_some_iff.2 hl, ?_⟩
        rw [if_pos rfl, Nat.mul_zero, Nat.zero_add]
  · constructor
    · rintro ⟨l, hl, hbyte⟩
      rw [if_neg ha, Option.bind_eq_some_iff] at hbyte
      obtain ⟨h, hh, hbyte⟩ := hbyte
      exact ⟨h, l, .inl (hexDigit?_eq_some_iff.1 hh), hexDigit?_eq_some_iff.1 hl,
        (Option.some.inj hbyte).symm⟩
    · rintro ⟨h, l, hh | ⟨hplus, -⟩, hl, rfl⟩
      · refine ⟨l, hexDigit?_eq_some_iff.2 hl, ?_⟩
        rw [if_neg ha, hexDigit?_eq_some_iff.2 hh]
        rfl
      · exact absurd hplus ha

theorem hashBytes_eq_ok_iff {cs : List Char} {bytes : List UInt8} :
    hashBytes cs = .ok bytes ↔ Pairs PlusOrDigit cs bytes := by
  induction cs using hashBytes.induct generalizing bytes with
  | case1 =>
    constructor
    · rintro ⟨⟩
      exact .nil
    · rintro ⟨⟩
      rfl
  | case2 c => constructor <;> rintro ⟨⟩
  | case3 a b cs ha =>
    unfold hashBytes
    rw [if_pos ha]
    constructor
    · rintro ⟨⟩
    · intro h
      cases h with
      | cons ha' _ _ => exact absurd (ha.symm.trans ha'.utf8Size) (by decide)
  | case4 a b cs ha hbroken =>
    unfold hashBytes
    rw [if_neg ha, if_pos hbroken]
    constructor
    · rintro ⟨⟩
    · intro h
      cases h with
      | cons ha' hb' _ => exact absurd hbroken (by simp [ha'.utf8Size, hb'.utf8Size])
  | case5 a b cs ha hsingle hnone =>
    unfold hashBytes
    rw [if_neg ha, if_neg hsingle, hnone]
    constructor
    · rintro ⟨⟩
    · intro h
      cases h with
      | cons ha' hb' _ =>
        have hbyte := pairByte?_eq_some_iff.2 ⟨_, _, ha', hb', rfl⟩
        rw [hnone] at hbyte
        cases hbyte
  | case6 a b cs ha hsingle byte hbyte ih =>
    unfold hashBytes
    rw [if_neg ha, if_neg hsingle, hbyte]
    constructor
    · intro h
      obtain ⟨rest, hrest, rfl⟩ := map_eq_ok h
      obtain ⟨h, l, ha', hb', rfl⟩ := pairByte?_eq_some_iff.1 hbyte
      exact .cons ha' hb' (ih.1 hrest)
    · intro h
      cases h with
      | cons ha' hb' hcs =>
        have hsame := pairByte?_eq_some_iff.2 ⟨_, _, ha', hb', rfl⟩
        rw [hbyte] at hsame
        dsimp only
        rw [ih.2 hcs, Option.some.inj hsame]
        rfl

/-- Only two things can be wrong with a chunk. -/
theorem hashBytes_error {cs : List Char} {e : AddressError} (h : hashBytes cs = .error e) :
    e = .invalidHex ∨ e = .brokenCharacter := by
  induction cs using hashBytes.induct with
  | case1 => cases h
  | case2 c =>
    unfold hashBytes at h
    split at h <;> cases h
    · exact .inl rfl
    · exact .inr rfl
  | case3 a b cs ha =>
    unfold hashBytes at h
    rw [if_pos ha] at h
    cases h
    exact .inl rfl
  | case4 a b cs ha hbroken =>
    unfold hashBytes at h
    rw [if_neg ha, if_pos hbroken] at h
    cases h
    exact .inr rfl
  | case5 a b cs ha hsingle hnone =>
    unfold hashBytes at h
    rw [if_neg ha, if_neg hsingle, hnone] at h
    cases h
    exact .inl rfl
  | case6 a b cs ha hsingle byte hbyte ih =>
    unfold hashBytes at h
    rw [if_neg ha, if_neg hsingle, hbyte] at h
    exact ih (map_eq_error h)

/-- The written bytes are pairs of digits. -/
theorem pairs_hexBytes (bytes : List UInt8) : Pairs HexDigit (hexBytes bytes).toList bytes := by
  rw [hexBytes, String.toList_ofList]
  induction bytes with
  | nil => exact .nil
  | cons byte bytes ih =>
    have hlt := byte.toNat_lt
    have hbyte : UInt8.ofNat (16 * (byte.toNat / 16) + byte.toNat % 16) = byte := by
      rw [Nat.div_add_mod, UInt8.ofNat_toNat]
    have hhigh : HexDigit (hexDigit (byte.toNat / 16)) (byte.toNat / 16) := ⟨by omega, .inl rfl⟩
    have hlow : HexDigit (hexDigit (byte.toNat % 16)) (byte.toNat % 16) := ⟨by omega, .inl rfl⟩
    have hpairs := Pairs.cons hhigh hlow ih
    rwa [hbyte] at hpairs

/-! ### Texts -/

theorem ofParts?_eq_some_iff {workchain : Int} {hash : List UInt8} {a : Address} :
    ofParts? workchain hash = some a ↔ a.workchain = workchain ∧ a.hash = hash := by
  unfold ofParts?
  constructor
  · intro h
    split at h
    · cases h
      exact ⟨rfl, rfl⟩
    · cases h
  · rintro ⟨rfl, rfl⟩
    rw [dif_pos ⟨a.workchain_range, a.hash_length⟩]

section
variable {s : String} {left right : List Char} {v : Int}

theorem ofText?_of_bad_workchain (hs : s.toList = left ++ ':' :: right) (hcolon : ':' ∉ left)
    (h : ∀ v, Decimal left v → ¬(-128 ≤ v ∧ v ≤ 127)) :
    ofText? s = .error (.invalidWorkchain (String.ofList left)) := by
  unfold ofText?
  simp only [splitColon?_eq_some_iff.2 ⟨hs, hcolon⟩]
  cases hnumber : signed? left with
  | none => rfl
  | some v =>
    have hrange := h v (signed?_eq_some_iff.1 hnumber)
    exact if_pos (by omega)

theorem ofText?_of_decimal (hs : s.toList = left ++ ':' :: right) (hv : Decimal left v)
    (hrange : -128 ≤ v ∧ v ≤ 127) :
    ofText? s = if utf8Length right ≠ 64 then .error (.invalidHashLength (utf8Length right))
      else hashBytes right >>= fun hash =>
        match ofParts? v hash with
        | some a => .ok a
        | none => .error .invalidHex := by
  unfold ofText?
  simp only [splitColon?_eq_some_iff.2 ⟨hs, colon_not_mem_decimal hv⟩, signed?_eq_some_iff.2 hv]
  rw [if_neg (by omega)]
  rfl

/-- A hash of the right length is read, or refused for one of its chunks. -/
theorem ofText?_of_length (hs : s.toList = left ++ ':' :: right) (hv : Decimal left v)
    (hrange : -128 ≤ v ∧ v ≤ 127) (hlength : utf8Length right = 64) :
    (∃ a : Address, Pairs PlusOrDigit right a.hash ∧ a.workchain = v ∧ ofText? s = .ok a)
      ∨ ∃ e, hashBytes right = .error e ∧ ofText? s = .error e := by
  rw [ofText?_of_decimal hs hv hrange, if_neg (not_not.2 hlength)]
  cases hhash : hashBytes right with
  | error e => exact .inr ⟨e, rfl, rfl⟩
  | ok hash =>
    have hpairs := hashBytes_eq_ok_iff.1 hhash
    have hbytes : hash.length = 32 := by
      have := hpairs.utf8Length
      omega
    refine .inl ⟨⟨v, hash, hrange, hbytes⟩, hpairs, rfl, ?_⟩
    have hparts : ofParts? v hash = some ⟨v, hash, hrange, hbytes⟩ :=
      ofParts?_eq_some_iff.2 ⟨rfl, rfl⟩
    change (match ofParts? v hash with
      | some a => Except.ok a
      | none => .error AddressError.invalidHex) = _
    rw [hparts]

theorem ofText?_of_spells {a : Address} (h : Spells PlusOrDigit s a) : ofText? s = .ok a := by
  obtain ⟨left, right, hs, hv, hpairs⟩ := h
  have hlength : utf8Length right = 64 := by rw [hpairs.utf8Length, a.hash_length]
  rw [ofText?_of_decimal hs hv a.workchain_range, if_neg (not_not.2 hlength),
    hashBytes_eq_ok_iff.2 hpairs]
  change (match ofParts? a.workchain a.hash with
    | some a => Except.ok a
    | none => .error AddressError.invalidHex) = _
  rw [ofParts?_eq_some_iff.2 ⟨rfl, rfl⟩]

theorem ofText?_of_refused {e : AddressError} (h : Refused s e) : ofText? s = .error e := by
  cases h with
  | missingSeparator h =>
    unfold ofText?
    simp only [splitColon?_eq_none_iff.2 h]
  | invalidWorkchain hs hcolon h => exact ofText?_of_bad_workchain hs hcolon h
  | invalidHashLength hs hv hrange h => rw [ofText?_of_decimal hs hv hrange, if_pos h]
  | @invalidHex left right v hs hv hrange hlength h huncut =>
    obtain ⟨a, hpairs, -, -⟩ | ⟨e, hhash, herror⟩ := ofText?_of_length hs hv hrange hlength
    · exact absurd hpairs (h _)
    · obtain rfl | rfl := hashBytes_error hhash
      · exact herror
      · exact absurd ((hashBytes_broken_iff right ⟨32, hlength⟩).1 hhash) huncut
  | @brokenCharacter left right v hs hv hrange hlength h =>
    have hbroken := (hashBytes_broken_iff right ⟨32, hlength⟩).2 h
    rw [ofText?_of_decimal hs hv hrange, if_neg (not_not.2 hlength), hbroken]
    rfl

/-- A text is read or refused for one of the causes. -/
theorem spells_or_refused (s : String) :
    (∃ a, Spells PlusOrDigit s a) ∨ ∃ e, Refused s e := by
  by_cases hcolon : ':' ∈ s.toList
  case neg => exact .inr ⟨_, .missingSeparator hcolon⟩
  obtain ⟨left, right, hs, hfirst⟩ :
      ∃ left right, s.toList = left ++ ':' :: right ∧ ':' ∉ left := by
    cases hsplit : splitColon? s.toList with
    | none => exact absurd hcolon (splitColon?_eq_none_iff.1 hsplit)
    | some parts => exact ⟨parts.1, parts.2, splitColon?_eq_some_iff.1 hsplit⟩
  by_cases hnumber : ∃ v, Decimal left v ∧ -128 ≤ v ∧ v ≤ 127
  case neg =>
    exact .inr ⟨_, .invalidWorkchain hs hfirst fun v hv hrange => hnumber ⟨v, hv, hrange⟩⟩
  obtain ⟨v, hv, hrange⟩ := hnumber
  by_cases hlength : utf8Length right = 64
  case neg => exact .inr ⟨_, .invalidHashLength hs hv hrange hlength⟩
  obtain ⟨a, hpairs, rfl, -⟩ | ⟨e, hhash, -⟩ := ofText?_of_length hs hv hrange hlength
  · exact .inl ⟨a, left, right, hs, hv, hpairs⟩
  · refine .inr ?_
    obtain rfl | rfl := hashBytes_error hhash
    · refine ⟨_, .invalidHex hs hv hrange hlength (fun bytes hpairs => ?_) fun hcut => ?_⟩
      · cases hhash.symm.trans (hashBytes_eq_ok_iff.2 hpairs)
      · cases hhash.symm.trans ((hashBytes_broken_iff right ⟨32, hlength⟩).2 hcut)
    · exact ⟨_, .brokenCharacter hs hv hrange hlength
        ((hashBytes_broken_iff right ⟨32, hlength⟩).1 hhash)⟩

end

/-- The written form of an address spells it. -/
theorem spells_text (a : Address) : Spells HexDigit a.text a := by
  refine ⟨_, _, ?_, decimal_toString a.workchain, pairs_hexBytes a.hash⟩
  rw [text, String.toList_append, String.toList_append, List.append_assoc]
  rfl

/-- Each text that spells an address is read as that address, in particular the written form of an
address. The texts that are read are those that spell an address when a plus sign may stand for a
high digit, and each other text is refused for its cause. -/
theorem ofText?_exact (s : String) :
    (∀ a, Spells HexDigit s a → ofText? s = .ok a)
      ∧ (∀ a, ofText? s = .ok a ↔ Spells PlusOrDigit s a)
      ∧ (∀ e, ofText? s = .error e ↔ Refused s e)
      ∧ ∀ a : Address, ofText? a.text = .ok a := by
  have hread {s : String} {a : Address} (h : Spells HexDigit s a) : ofText? s = .ok a := by
    obtain ⟨left, right, hs, hv, hpairs⟩ := h
    exact ofText?_of_spells ⟨left, right, hs, hv, hpairs.mono fun _ _ => .inl⟩
  refine ⟨fun a => hread, fun a => ⟨fun h => ?_, ofText?_of_spells⟩,
    fun e => ⟨fun h => ?_, ofText?_of_refused⟩, fun a => hread (spells_text a)⟩
  · obtain ⟨b, hspells⟩ | ⟨e, hrefused⟩ := spells_or_refused s
    · cases h.symm.trans (ofText?_of_spells hspells)
      exact hspells
    · cases h.symm.trans (ofText?_of_refused hrefused)
  · obtain ⟨b, hspells⟩ | ⟨e', hrefused⟩ := spells_or_refused s
    · cases h.symm.trans (ofText?_of_spells hspells)
    · cases h.symm.trans (ofText?_of_refused hrefused)
      exact hrefused

/-- A plus sign in place of a digit is read although the text spells no address. -/
theorem ofText?_exact_plus : ¬∀ s : String,
    (∀ a, ofText? s = .ok a ↔ Spells HexDigit s a)
      ∧ ((∀ a, ¬Spells HexDigit s a) → ∃ e, e ≠ .brokenCharacter ∧ ofText? s = .error e)
      ∧ ∀ a : Address, ofText? a.text = .ok a := by
  intro h
  obtain ⟨hspells, -, -⟩ := h ("0:+f" ++ "".pushn '0' 62)
  have hread : ofText? ("0:+f" ++ "".pushn '0' 62)
      = .ok ⟨0, 15 :: List.replicate 31 0, by decide, by decide⟩ := by decide
  obtain ⟨left, right, hs, hv, hpairs⟩ := (hspells _).1 hread
  have hsplit := splitColon?_eq_some_iff.2 ⟨hs, colon_not_mem_decimal hv⟩
  cases (rfl : splitColon? ("0:+f" ++ "".pushn '0' 62).toList
    = some (['0'], '+' :: 'f' :: List.replicate 62 '0')).symm.trans hsplit
  have hplus {cs : List Char} {bytes : List UInt8} : ¬Pairs HexDigit ('+' :: cs) bytes := by
    rintro (_ | ⟨hdigit, _, _⟩)
    cases hexDigit?_eq_some_iff.2 hdigit
  exact hplus hpairs

end Address
end CellPack
