import Mathlib
import CellPack.Cell.Packed
import CellPack.Proofs.Words
/-!
# Bits of byte strings

A byte string read bit by bit through masks is the bit string that it stands for, and setting a bit
of a byte sets one bit of the string. Counted from the end, the shortest bytes of a number give all
its bits, with copies of the sign in front.
-/

namespace CellPack

/-! ## Bits from the front -/

theorem toNat_bitMask (i : Nat) : (bitMask i).toNat = 2 ^ (7 - i % 8) := by
  have h : ∀ k < 8, (0x80 >>> UInt8.ofNat k : UInt8).toNat = 2 ^ (7 - k) := by decide
  exact h _ (Nat.mod_lt _ (by decide))

theorem and_ne_zero {b mask : UInt8} {k : Nat} (h : mask.toNat = 2 ^ k) :
    (b &&& mask ≠ 0) ↔ b.toNat.testBit k = true := by
  rw [ne_eq, ← UInt8.toNat_inj, UInt8.toNat_and, h, Nat.and_two_pow]
  cases b.toNat.testBit k <;> simp

theorem testBit_or_bitMask (b : UInt8) (i j : Nat) :
    (b ||| bitMask i).toNat.testBit (7 - j % 8) =
      if i % 8 = j % 8 then true else b.toNat.testBit (7 - j % 8) := by
  have hiff : 7 - i % 8 = 7 - j % 8 ↔ i % 8 = j % 8 := by omega
  rw [UInt8.toNat_or, toNat_bitMask, Nat.testBit_or, Nat.testBit_two_pow]
  by_cases h : i % 8 = j % 8 <;> simp [h, hiff]

namespace Bits

theorem getElem?_ofNat {n i : Nat} (h : i < n) (v : Nat) :
    (ofNat n v)[i]? = some (v.testBit (n - 1 - i)) := by
  rw [ofNat_eq_map]
  simp [h]

theorem getElem?_ofBytes (bytes : List UInt8) (i : Nat) :
    (ofBytes bytes)[i]? = bytes[i / 8]?.map fun b => b.toNat.testBit (7 - i % 8) := by
  induction bytes generalizing i with
  | nil => simp [ofBytes]
  | cons b bytes ih =>
    rw [ofBytes_cons, List.getElem?_append, length_ofByte]
    by_cases h : i < 8
    · rw [if_pos h, ofByte, getElem?_ofNat h, Nat.div_eq_of_lt h, Nat.mod_eq_of_lt h]
      rfl
    · obtain ⟨j, rfl⟩ := Nat.exists_eq_add_of_le' (Nat.not_lt.1 h)
      rw [if_neg h, Nat.add_sub_cancel, ih, Nat.add_div_right j (by decide), Nat.add_mod_right]
      rfl

theorem ofBytes_append (xs ys : List UInt8) : ofBytes (xs ++ ys) = ofBytes xs ++ ofBytes ys :=
  List.flatMap_append

theorem ofBytes_inj {xs ys : List UInt8} (h : ofBytes xs = ofBytes ys) : xs = ys := by
  rw [← wholeBytes_ofBytes xs, h, wholeBytes_ofBytes]

/-- Setting a bit of a byte sets that bit of the string. -/
theorem ofBytes_modify {bytes : List UInt8} {k : Nat} (hk : k < bytes.length) (i : Nat) :
    ofBytes (bytes.modify k (· ||| bitMask i)) = (ofBytes bytes).set (8 * k + i % 8) true := by
  refine List.ext_getElem? fun j => ?_
  rw [getElem?_ofBytes, List.getElem?_modify, List.getElem?_set, length_ofBytes, getElem?_ofBytes]
  by_cases hbyte : k = j / 8
  · subst hbyte
    have hin : 8 * (j / 8) + i % 8 < 8 * bytes.length := by omega
    have hsame : 8 * (j / 8) + i % 8 = j ↔ i % 8 = j % 8 := by omega
    rw [if_pos hin, List.getElem?_eq_getElem hk, Option.map_some]
    simp only [if_true, Option.map_eq_map, Option.map_some, testBit_or_bitMask, hsame]
    split <;> rfl
  · have hne : 8 * k + i % 8 ≠ j := by omega
    simp [hbyte, hne]

theorem padding_succ (n : Nat) :
    (if n % 8 = 0 then List.replicate 8 false else padding n) = false :: padding (n + 1) := by
  have hsucc : 8 * ((n + 1 + 7) / 8) - (n + 1) + 1 =
      if n % 8 = 0 then 8 else 8 * ((n + 7) / 8) - n := by
    split <;> omega
  rw [padding, padding, ← List.replicate_succ, hsucc]
  split <;> rfl

end Bits

theorem bitAt_eq (bytes : List UInt8) (i : Nat) :
    bitAt bytes i = (Bits.ofBytes bytes)[i]?.getD false := by
  rw [Bits.getElem?_ofBytes, bitAt, List.getD_eq_getElem?_getD, Bool.eq_iff_iff, decide_eq_true_eq,
    and_ne_zero (toNat_bitMask i)]
  cases bytes[i / 8]? with
  | none => simp
  | some b => rfl

/-- Reading the bits one by one. -/
theorem map_bitAt {bytes : List UInt8} {n : Nat} (h : n ≤ 8 * bytes.length) :
    (List.range n).map (bitAt bytes) = (Bits.ofBytes bytes).take n := by
  refine List.ext_getElem? fun i => ?_
  rw [List.getElem?_map, List.getElem?_take]
  by_cases hi : i < n
  · have hin : i < (Bits.ofBytes bytes).length := by
      rw [Bits.length_ofBytes]
      omega
    rw [if_pos hi, List.getElem?_range hi, Option.map_some, bitAt_eq,
      List.getElem?_eq_getElem hin, Option.getD_some]
  · rw [if_neg hi, List.getElem?_eq_none (by simpa using hi), Option.map_none]

/-! ## Bits from the end -/

/-- Behind the end of a byte string there are its bits, and in front of them those of fill bytes. -/
theorem alignedBit_eq (bytes : List UInt8) (fill : UInt8) (i : Nat) :
    alignedBit bytes fill i =
      if i < 8 * bytes.length then ((Bits.ofBytes bytes)[8 * bytes.length - 1 - i]?).getD false
      else fill.toNat.testBit (i % 8) := by
  have hmask : (1 <<< UInt8.ofNat (i % 8) : UInt8).toNat = 2 ^ (i % 8) := by
    have h : ∀ k < 8, (1 <<< UInt8.ofNat k : UInt8).toNat = 2 ^ k := by decide
    exact h _ (Nat.mod_lt _ (by decide))
  rw [alignedBit, Bool.eq_iff_iff, decide_eq_true_eq, and_ne_zero hmask]
  by_cases h : i < 8 * bytes.length
  · have hindex : (8 * bytes.length - 1 - i) / 8 = bytes.length - (1 + i / 8) := by omega
    have hbit : 7 - (8 * bytes.length - 1 - i) % 8 = i % 8 := by omega
    have hlt : bytes.length - (1 + i / 8) < bytes.length := by omega
    rw [if_pos (by omega), if_pos h, Bits.getElem?_ofBytes, hindex, hbit,
      List.getD_eq_getElem _ _ hlt, List.getElem?_eq_getElem hlt]
    rfl
  · rw [if_neg (by omega), if_neg h]

theorem alignedBit_wholeBytes (len x : Nat) (fill : UInt8) (i : Nat) :
    alignedBit (Bits.wholeBytes (Bits.ofNat (8 * len) x)) fill i =
      if i < 8 * len then x.testBit i else fill.toNat.testBit (i % 8) := by
  have hlen := Bits.length_ofNat (8 * len) x
  rw [alignedBit_eq, Bits.length_wholeBytes len hlen, Bits.ofBytes_wholeBytes len hlen]
  by_cases h : i < 8 * len
  · have hsame : 8 * len - 1 - (8 * len - 1 - i) = i := by omega
    rw [if_pos h, if_pos h, Bits.getElem?_ofNat (by omega), hsame, Option.getD_some]
  · rw [if_neg h, if_neg h]

/-- The bytes of a natural number behind zeros. -/
theorem alignedBit_naturalBytes (v i : Nat) : alignedBit (naturalBytes v) 0 i = v.testBit i := by
  rw [naturalBytes, alignedBit_wholeBytes]
  split
  · rfl
  · next h =>
    have hlt : v < 2 ^ i := bitLength_le_iff.1 (by omega)
    rw [Nat.testBit_lt_two_pow hlt]
    exact Nat.zero_testBit _

theorem testBit_ofInt (v : Int) {n i : Nat} (h : i < n) :
    (BitVec.ofInt n v).toNat.testBit i = v.testBit i := by
  rw [BitVec.testBit_toNat]
  cases v with
  | ofNat m =>
    rw [Int.ofNat_eq_natCast, BitVec.ofInt_natCast, BitVec.getLsbD_ofNat, decide_eq_true h]
    rfl
  | negSucc m =>
    rw [BitVec.ofInt_negSucc_eq_not_ofNat, BitVec.getLsbD_not, BitVec.getLsbD_ofNat,
      decide_eq_true h]
    rfl

theorem testBit_of_magnitudeBits_le {v : Int} {i : Nat} (h : IntFormat.magnitudeBits v ≤ i) :
    v.testBit i = decide (v < 0) := by
  cases v with
  | ofNat m =>
    have hlt : m < 2 ^ i := bitLength_le_iff.1 h
    simp [Int.testBit, Nat.testBit_lt_two_pow hlt]
  | negSucc m =>
    have hlt : m < 2 ^ i := bitLength_le_iff.1 h
    simp [Int.testBit, Nat.testBit_lt_two_pow hlt]

/-- The bytes of an integer behind copies of its sign. -/
theorem alignedBit_signedBytes (v : Int) (i : Nat) :
    alignedBit (signedBytes v) (if v < 0 then 0xff else 0) i = v.testBit i := by
  rw [signedBytes, Bits.ofInt, alignedBit_wholeBytes]
  split
  · next h => exact testBit_ofInt v h
  · next h =>
    rw [testBit_of_magnitudeBits_le (by omega)]
    have hones : ∀ k < 8, (0xff : UInt8).toNat.testBit k = true := by decide
    split
    · next hneg => rw [hones _ (Nat.mod_lt _ (by decide)), decide_eq_true hneg]
    · next hneg =>
      rw [decide_eq_false hneg]
      exact Nat.zero_testBit _

end CellPack
