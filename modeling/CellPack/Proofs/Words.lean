import Mathlib
import CellPack.Proofs.Cells
/-!
# Machine words and integers of any size

A word is written bit by bit from its sign on, an integer of any size as its two's complement.
Both write the same, and both refuse the same values. A word is read where the integer that stands
there is one, and is refused everywhere else (`words_agree`).
-/

namespace CellPack

/-! ## Integers of words -/

/-- The integer is that of a signed word. -/
def IsWord (x : Int) : Prop := -2 ^ 127 ≤ x ∧ x < 2 ^ 127

instance (x : Int) : Decidable (IsWord x) := inferInstanceAs (Decidable (_ ∧ _))

theorem isWord_toInt (w : Word) : IsWord w.toInt := ⟨w.le_toInt, w.toInt_lt⟩

theorem toInt_ofInt_of_isWord {x : Int} (h : IsWord x) : (BitVec.ofInt 128 x).toInt = x :=
  BitVec.toInt_ofInt_eq_self (by decide) h.1 h.2

theorem setWidth_ofInt {n : Nat} (hn : n ≤ 128) (v : Int) :
    (BitVec.ofInt 128 v).setWidth n = BitVec.ofInt n v := by
  apply BitVec.eq_of_toNat_eq
  have hdvd : ((2 ^ n : Nat) : Int) ∣ ((2 ^ 128 : Nat) : Int) :=
    Int.natCast_dvd_natCast.2 (pow_dvd_pow 2 hn)
  have h0 : 0 ≤ v % ((2 ^ 128 : Nat) : Int) := Int.emod_nonneg _ (by positivity)
  rw [BitVec.toNat_setWidth, BitVec.toNat_ofInt, BitVec.toNat_ofInt, ← Int.toNat_natCast (2 ^ n),
    ← Int.toNat_emod h0 (by positivity), Int.emod_emod_of_dvd _ hdvd, Int.toNat_natCast]

/-! ## Bits of words -/

namespace Bits

theorem ofNat_eq_map (n v : Nat) : ofNat n v = (List.range n).reverse.map v.testBit := by
  induction n with
  | zero => rfl
  | succ n ih =>
    rw [List.range_succ, List.reverse_append, List.map_append, ← ih]
    rfl

/-- Bits computed one by one, the most significant one first. -/
theorem map_reverse_range {f : Nat → Bool} {n v : Nat} (h : ∀ i < n, f i = v.testBit i) :
    (List.range n).reverse.map f = ofNat n v := by
  rw [ofNat_eq_map]
  exact List.map_congr_left fun i hi => h i (by simpa using hi)

theorem map_getLsbD (w : Word) (n : Nat) :
    (List.range n).reverse.map w.getLsbD = ofNat n w.toNat := map_reverse_range fun _ _ => rfl

theorem ofNat_append (m n v : Nat) : ofNat (m + n) v = ofNat m (v >>> n) ++ ofNat n v := by
  induction m with
  | zero => simp [ofNat]
  | succ m ih =>
    have hbit : v.testBit (m + n) = (v >>> n).testBit m := by
      rw [Nat.testBit_shiftRight, Nat.add_comm]
    rw [Nat.add_right_comm, ofNat, ofNat, ih, hbit, List.cons_append]

theorem ofInt_toInt (bits : List Bool) : ofInt bits.length (toInt bits) = bits := by
  have hlt := toNat_lt bits
  rw [ofInt, toInt, BitVec.ofInt_toInt, BitVec.toNat_ofNat, Nat.mod_eq_of_lt hlt, ofNat_toNat]

theorem toNat_append (xs ys : List Bool) :
    toNat (xs ++ ys) = 2 ^ ys.length * toNat xs + toNat ys := by
  rw [toNat, List.foldl_append, foldl_eq, ← toNat]

theorem toNat_eq_zero {bits : List Bool} : toNat bits = 0 ↔ bits.any id = false := by
  induction bits with
  | nil => simp [toNat]
  | cons b bits ih =>
    have hpos : 0 < 2 ^ bits.length := Nat.two_pow_pos _
    rw [toNat_cons, List.any_cons]
    cases b <;> simp [ih]

/-! ### Signed words -/

/-- The two's complement of a word in any number of bits: its own bits behind copies of its sign. -/
theorem testBit_ofInt_word (w : Word) {n i : Nat} (h : i < n) :
    (BitVec.ofInt n w.toInt).toNat.testBit i = if i < 128 then w.getLsbD i else w.msb := by
  have hext := w.getLsbD_signExtend (v := n) (i := i)
  rw [decide_eq_true h, Bool.true_and] at hext
  exact hext

theorem ofInt_word (w : Word) (n : Nat) :
    ((List.range n).reverse.map fun i => if i < 128 then w.getLsbD i else w.msb) =
      ofInt n w.toInt :=
  map_reverse_range fun _ hi => (testBit_ofInt_word w hi).symm

theorem ofInt_word_self (w : Word) : ofInt 128 w.toInt = ofNat 128 w.toNat := by
  rw [ofInt, BitVec.ofInt_toInt]

theorem ofInt_word_wide (w : Word) (k : Nat) :
    ofInt (k + 128) w.toInt = List.replicate k w.msb ++ ofNat 128 w.toNat := by
  have hlow : ofNat 128 (BitVec.ofInt (k + 128) w.toInt).toNat = ofNat 128 w.toNat := by
    rw [← map_getLsbD]
    symm
    refine map_reverse_range fun i hi => ?_
    rw [testBit_ofInt_word w (by omega), if_pos hi]
  have hhigh : ofNat k ((BitVec.ofInt (k + 128) w.toInt).toNat >>> 128) =
      List.replicate k w.msb := by
    rw [List.eq_replicate_iff, ofNat_eq_map]
    refine ⟨by rw [List.length_map, List.length_reverse, List.length_range], fun b hb => ?_⟩
    obtain ⟨i, hi, rfl⟩ := List.mem_map.1 hb
    have hi : i < k := by simpa using hi
    rw [Nat.testBit_shiftRight, testBit_ofInt_word w (by omega), if_neg (by omega)]
  rw [ofInt, ofNat_append, hhigh, hlow]

theorem toInt_ofInt_word (w : Word) {n : Nat} (h : 128 ≤ n) : toInt (ofInt n w.toInt) = w.toInt := by
  obtain ⟨hlo, hhi⟩ := isWord_toInt w
  have hle : (2 : Int) ^ 127 ≤ 2 ^ (n - 1) := pow_le_pow_right₀ (by norm_num) (by omega)
  exact toInt_ofInt (by omega) (by omega) (by omega)

theorem headD_ofNat_word (w : Word) : (ofNat 128 w.toNat).headD false = w.msb := by
  rw [BitVec.msb_eq_getLsbD_last]
  rfl

end Bits

/-! ## Writing -/

namespace Builder

open Bits

/-- A word fits in as many bits as its integer does. -/
theorem wordFits_eq (w : Word) {n : Nat} (hn : n ≠ 0) :
    wordFits w n = (IntFormat.int n).fits w.toInt := by
  obtain ⟨hlo, hhi⟩ := isWord_toInt w
  rw [Bool.eq_iff_iff, IntFormat.fits, IntFormat.fitsSigned_iff (by omega), wordFits, if_neg hn]
  by_cases hwide : 128 ≤ n
  · have hle : (2 : Int) ^ 127 ≤ 2 ^ (n - 1) := pow_le_pow_right₀ (by norm_num) (by omega)
    rw [if_pos hwide]
    exact ⟨fun _ => ⟨by omega, by omega⟩, fun _ => rfl⟩
  · have hlow : w.setWidth n = BitVec.ofInt n w.toInt := by
      rw [← setWidth_ofInt (by omega), BitVec.ofInt_toInt]
    rw [if_neg hwide, decide_eq_true_eq, hlow]
    constructor
    · intro h
      rw [← h]
      exact ⟨BitVec.le_toInt _, BitVec.toInt_lt⟩
    · rintro ⟨h1, h2⟩
      exact BitVec.toInt_ofInt_eq_self (by omega) h1 h2

/-- A signed word is written as its integer is. -/
theorem storeInt_eq (w : Word) (n : Nat) : storeInt w n = storeBigInt w.toInt n := by
  have hrefused : (!wordFits w n) = true ↔ n = 0 ∨ (!(IntFormat.int n).fits w.toInt) = true := by
    by_cases hn : n = 0
    · simp [hn, wordFits]
    · simp [hn, wordFits_eq w hn]
  unfold storeInt storeBigInt
  rw [ofInt_word]
  exact if_congr hrefused rfl rfl

/-- An unsigned word is written as its number is. -/
theorem storeUint_eq (w : Word) (n : Nat) : storeUint w n = storeBigUint w.toNat n := by
  have hlt := w.isLt
  have hrefused : (n < 128 ∧ w.toNat >>> n ≠ 0) ↔ bitLength w.toNat > n := by
    have hpos : 0 < 2 ^ n := Nat.two_pow_pos n
    have hlong : bitLength w.toNat > n ↔ ¬w.toNat < 2 ^ n := by
      rw [← bitLength_le_iff, Nat.not_le]
    rw [hlong, Nat.shiftRight_eq_div_pow, ne_eq, Nat.div_eq_zero_iff]
    constructor
    · rintro ⟨-, h⟩
      omega
    · intro h
      refine ⟨?_, by omega⟩
      by_contra hwide
      exact h (hlt.trans_le (Nat.pow_le_pow_right (by decide) (by omega)))
  unfold storeUint storeBigUint
  rw [map_getLsbD]
  exact if_congr hrefused rfl rfl

end Builder

/-! ## Reading -/

namespace Slice

open Bits

/-- More bits than a word has are a word's if all of those in front are zeros. -/
theorem any_take_iff (raw : List Bool) :
    (raw.take (raw.length - 128)).any id = true ↔ 2 ^ 128 ≤ toNat raw := by
  have hsplit := toNat_append (raw.take (raw.length - 128)) (raw.drop (raw.length - 128))
  rw [List.take_append_drop] at hsplit
  have hlow := toNat_lt (raw.drop (raw.length - 128))
  rw [List.length_drop] at hsplit hlow
  by_cases hwide : raw.length ≤ 128
  · have hzero : raw.length - 128 = 0 := by omega
    have hle : 2 ^ raw.length ≤ 2 ^ 128 := Nat.pow_le_pow_right (by decide) hwide
    have hlt := toNat_lt raw
    rw [hzero, List.take_zero]
    simp only [List.any_nil, Bool.false_eq_true, false_iff]
    omega
  · have hlen : raw.length - (raw.length - 128) = 128 := by omega
    rw [hlen] at hsplit hlow
    rw [← not_iff_not, Bool.not_eq_true, ← toNat_eq_zero]
    constructor
    · intro h
      rw [h] at hsplit
      omega
    · intro h
      by_contra hne
      have := Nat.le_mul_of_pos_right (2 ^ 128) (Nat.pos_of_ne_zero hne)
      omega

/-- The bits in front of a word's do not matter to the word. -/
theorem ofNat_drop (raw : List Bool) :
    BitVec.ofNat 128 (toNat (raw.drop (raw.length - 128))) = BitVec.ofNat 128 (toNat raw) := by
  by_cases hwide : raw.length ≤ 128
  · rw [Nat.sub_eq_zero_of_le hwide, List.drop_zero]
  · have hsplit := toNat_append (raw.take (raw.length - 128)) (raw.drop (raw.length - 128))
    rw [List.take_append_drop, List.length_drop,
      show raw.length - (raw.length - 128) = 128 by omega] at hsplit
    apply BitVec.eq_of_toNat_eq
    rw [hsplit, BitVec.toNat_ofNat, BitVec.toNat_ofNat, Nat.mul_add_mod]

/-- An unsigned word is read as a number that has to be one. -/
theorem loadUint_eq (n : Nat) :
    loadUint n = loadBigUint n >>= fun x =>
      if x < 2 ^ 128 then pure (BitVec.ofNat 128 x) else throw (.valueOutOfRange n) := by
  unfold loadUint loadBigUint
  simp only [bind_assoc, pure_bind]
  refine bind_congr fun raw => ?_
  have hiff := any_take_iff raw
  by_cases h : toNat raw < 2 ^ 128
  · rw [if_pos h, if_neg (by rw [hiff]; omega), ofNat_drop]
  · rw [if_neg h, if_pos (hiff.2 (by omega))]
    rfl

/-- What a signed word's reading refuses: bits in front of a word's that are no copies of its sign. -/
def SignBroken (raw : List Bool) : Prop :=
  (raw.take (raw.length - 128)).any (· != raw.headD false) = true
    ∨ (raw.length - 128 > 0 ∧ ((raw.drop (raw.length - 128)).headD false != raw.headD false) = true)

/-- The bits of a signed word in more bits than it has. -/
theorem signBroken_wide (w : Word) {k : Nat} (hk : 0 < k) :
    ¬SignBroken (ofInt (k + 128) w.toInt)
      ∧ toInt ((ofInt (k + 128) w.toInt).drop k) = w.toInt := by
  have hlen : (ofInt (k + 128) w.toInt).length - 128 = k := by rw [length_ofInt, Nat.add_sub_cancel]
  have hhead : (ofInt (k + 128) w.toInt).headD false = w.msb := by
    obtain ⟨j, rfl⟩ := Nat.exists_eq_succ_of_ne_zero (Nat.ne_of_gt hk)
    rw [ofInt_word_wide, List.replicate_succ]
    rfl
  have htake : (ofInt (k + 128) w.toInt).take k = List.replicate k w.msb := by
    rw [ofInt_word_wide]
    exact List.take_left' (List.length_replicate ..)
  have hdrop : (ofInt (k + 128) w.toInt).drop k = ofNat 128 w.toNat := by
    rw [ofInt_word_wide]
    exact List.drop_left' (List.length_replicate ..)
  rw [SignBroken, hlen, hhead, htake, hdrop, headD_ofNat_word, ← ofInt_word_self]
  refine ⟨?_, toInt_ofInt_word w le_rfl⟩
  rintro (h | ⟨-, h⟩)
  · obtain ⟨b, hb, hne⟩ := List.any_eq_true.1 h
    rw [List.eq_of_mem_replicate hb, bne_self_eq_false] at hne
    cases hne
  · rw [bne_self_eq_false] at h
    cases h

/-- Bits that are copies of the sign of a word, and then the word. -/
theorem exists_word {raw : List Bool} (hwide : 128 < raw.length) (h : ¬SignBroken raw) :
    ∃ w : Word, raw = ofInt raw.length w.toInt := by
  obtain ⟨k, hk⟩ := Nat.exists_eq_add_of_le' hwide.le
  have hsub : raw.length - 128 = k := by omega
  rw [SignBroken, hsub, not_or, Bool.not_eq_true, List.any_eq_false] at h
  obtain ⟨hfront, hsign⟩ := h
  let w : Word := BitVec.ofNat 128 (toNat (raw.drop k))
  have hdroplen : (raw.drop k).length = 128 := by
    rw [List.length_drop]
    omega
  have hword : ofNat 128 w.toNat = raw.drop k := by
    have hlt := toNat_lt (raw.drop k)
    rw [hdroplen] at hlt
    rw [BitVec.toNat_ofNat, Nat.mod_eq_of_lt hlt]
    conv_lhs => rw [← hdroplen]
    exact ofNat_toNat _
  have hmsb : w.msb = raw.headD false := by
    rw [← headD_ofNat_word, hword]
    simpa using fun hne => hsign ⟨by omega, hne⟩
  have htake : raw.take k = List.replicate k w.msb := by
    refine List.eq_replicate_iff.2 ⟨?_, fun b hb => ?_⟩
    · rw [List.length_take]
      omega
    · rw [hmsb]
      simpa using hfront b hb
  refine ⟨w, ?_⟩
  rw [hk, ofInt_word_wide, hword, ← htake, List.take_append_drop]

theorem signBroken_iff (raw : List Bool) : SignBroken raw ↔ ¬IsWord (toInt raw) := by
  by_cases hwide : raw.length ≤ 128
  · have hfits : IsWord (toInt raw) := by
      by_cases hnil : raw = []
      · subst hnil
        rw [toInt_nil]
        exact ⟨by norm_num, by norm_num⟩
      · obtain ⟨hlo, hhi⟩ := toInt_range hnil
        have hle : (2 : Int) ^ (raw.length - 1) ≤ 2 ^ 127 :=
          pow_le_pow_right₀ (by norm_num) (by omega)
        exact ⟨by omega, by omega⟩
    have hzero : raw.length - 128 = 0 := by omega
    simp [SignBroken, hzero, hfits]
  · rw [← not_iff_not, not_not]
    constructor
    · intro h
      obtain ⟨w, hw⟩ := exists_word (by omega) h
      rw [hw, toInt_ofInt_word w (by omega)]
      exact isWord_toInt w
    · intro h
      obtain ⟨k, hk⟩ := Nat.exists_eq_add_of_le' (Nat.le_of_not_le hwide)
      have hraw : raw = ofInt (k + 128) (BitVec.ofInt 128 (toInt raw)).toInt := by
        rw [toInt_ofInt_of_isWord h, ← hk, ofInt_toInt]
      rw [hraw]
      exact (signBroken_wide _ (by omega)).1

/-- A word keeps the integer that stands there. -/
theorem toInt_drop {raw : List Bool} (h : IsWord (toInt raw)) :
    toInt (raw.drop (raw.length - 128)) = toInt raw := by
  by_cases hwide : raw.length ≤ 128
  · rw [Nat.sub_eq_zero_of_le hwide, List.drop_zero]
  · obtain ⟨k, hk⟩ := Nat.exists_eq_add_of_le' (Nat.le_of_not_le hwide)
    have hraw : raw = ofInt (k + 128) (BitVec.ofInt 128 (toInt raw)).toInt := by
      rw [toInt_ofInt_of_isWord h, ← hk, ofInt_toInt]
    have hdrop := (signBroken_wide (BitVec.ofInt 128 (toInt raw)) (k := k) (by omega)).2
    rw [← hraw, toInt_ofInt_of_isWord h] at hdrop
    rwa [hk, Nat.add_sub_cancel]

/-- A signed word is read as an integer that has to be one. -/
theorem loadInt_eq (n : Nat) :
    loadInt n = loadBigInt n >>= fun x =>
      if IsWord x then pure (BitVec.ofInt 128 x) else throw (.valueOutOfRange n) := by
  unfold loadInt loadBigInt
  simp only [bind_assoc, pure_bind]
  refine bind_congr fun raw => ?_
  have hiff := signBroken_iff raw
  unfold SignBroken at hiff
  by_cases h : IsWord (toInt raw)
  · rw [if_pos h, if_neg fun hbroken => hiff.1 hbroken h, toInt_drop h]
  · rw [if_neg h, if_pos (hiff.2 h)]
    rfl

/--
A reading of words against a reading of integers of any size: it gives what the other one gives
where that is the integer of a word, refuses all else that the other one gives, and runs out of bits
where the other one does, which fails in no other way.
-/
structure Narrows {α : Type} (narrow : Load Word) (wide : Load α) (value : Word → α)
    (fits : α → Prop) (n : Nat) : Prop where
  ok_iff : ∀ (s s' : Slice) (x : α), (∃ w, narrow.run s = (.ok w, s') ∧ value w = x) ↔
    wide.run s = (.ok x, s') ∧ fits x
  refused_iff : ∀ s s' : Slice, narrow.run s = (.error (.valueOutOfRange n), s') ↔
    ∃ x, wide.run s = (.ok x, s') ∧ ¬fits x
  underflow_iff : ∀ (s s' : Slice) (available : Nat),
    narrow.run s = (.error (.underflow n available), s') ↔
      wide.run s = (.error (.underflow n available), s')
  wide_error : ∀ (s s' : Slice) (e : CellError), wide.run s = (.error e, s') →
    ∃ available, e = .underflow n available

/-- A reading that checks what a wider one gives. -/
theorem narrows_of_eq {α : Type} {narrow : Load Word} {wide : Load α} {value : Word → α}
    {word : α → Word} {fits : α → Prop} [DecidablePred fits] {n : Nat}
    (heq : narrow = wide >>= fun x =>
      if fits x then pure (word x) else throw (.valueOutOfRange n))
    (hword : ∀ x, fits x → value (word x) = x)
    (hwide : ∀ s s' e, wide.run s = (.error e, s') → ∃ available, e = .underflow n available) :
    Narrows narrow wide value fits n := by
  have hok {s s' : Slice} {x : α} (h : wide.run s = (.ok x, s')) :
      narrow.run s =
        if fits x then (.ok (word x), s') else (.error (.valueOutOfRange n), s') := by
    rw [heq, Step.run_bind_ok h]
    split <;> rfl
  have herror {s s' : Slice} {e : CellError} (h : wide.run s = (.error e, s')) :
      narrow.run s = (.error e, s') := by
    rw [heq, Step.run_bind_error h]
  refine ⟨fun s s' x => ?_, fun s s' => ?_, fun s s' available => ?_, hwide⟩
  all_goals rcases h : wide.run s with ⟨e | y, t⟩
  · rw [herror h]
    grind
  · rw [hok h]
    grind
  · obtain ⟨available, rfl⟩ := hwide s t e h
    rw [herror h]
    grind
  · rw [hok h]
    grind
  · rw [herror h]
    grind
  · rw [hok h]
    grind

theorem error_of_takeBits {α : Type} {f : List Bool → Load α} {n : Nat} {s s' : Slice}
    {e : CellError} (hf : ∀ raw t e, (f raw).run t ≠ (.error e, s'))
    (h : (takeBits n >>= f).run s = (.error e, s')) : ∃ available, e = .underflow n available := by
  have hrun := run_takeBits n s
  by_cases hshort : n > s.bits.length
  · rw [if_pos hshort] at hrun
    rw [Step.run_bind_error hrun] at h
    cases h
    exact ⟨_, rfl⟩
  · rw [if_neg hshort] at hrun
    rw [Step.run_bind_ok hrun] at h
    exact absurd h (hf _ _ _)

end Slice

end CellPack
