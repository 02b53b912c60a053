import Mathlib
import CellPack.Cell.Bits
import CellPack.IntFormat
/-!
# Bit strings say numbers and bytes

Writing a number or a byte string as bits and reading the bits back are inverse to each other.
`fits` of an integer format is the range of its two's complement or of its binary digits.
-/

namespace CellPack

/-! ## Natural numbers -/

namespace Bits

@[simp] theorem length_ofNat (n v : Nat) : (ofNat n v).length = n := by
  induction n with
  | zero => rfl
  | succ n ih => simp [ofNat, ih]

theorem foldl_ofNat (n v acc : Nat) :
    (ofNat n v).foldl (fun acc b => 2 * acc + b.toNat) acc = 2 ^ n * acc + v % 2 ^ n := by
  induction n generalizing acc with
  | zero => simp [ofNat, Nat.mod_one]
  | succ n ih =>
    have hb : (v.testBit n).toNat = v / 2 ^ n % 2 := by
      rw [Nat.testBit_eq_decide_div_mod_eq]
      rcases Nat.mod_two_eq_zero_or_one (v / 2 ^ n) with h | h <;> simp [h]
    have hm : v % 2 ^ (n + 1) = v % 2 ^ n + 2 ^ n * (v / 2 ^ n % 2) := by
      rw [pow_succ, Nat.mod_mul]
    simp only [ofNat, List.foldl_cons, ih, hb, hm]
    ring

theorem toNat_ofNat (n v : Nat) : toNat (ofNat n v) = v % 2 ^ n := by
  simp [toNat, foldl_ofNat]

theorem foldl_lt (bits : List Bool) (acc : Nat) :
    bits.foldl (fun acc b => 2 * acc + b.toNat) acc < 2 ^ bits.length * (acc + 1) := by
  induction bits generalizing acc with
  | nil => simp
  | cons b bits ih =>
    have hb : b.toNat ≤ 1 := Bool.toNat_le b
    calc _ < 2 ^ bits.length * (2 * acc + b.toNat + 1) := ih _
      _ ≤ 2 ^ bits.length * (2 * (acc + 1)) := Nat.mul_le_mul_left _ (by omega)
      _ = 2 ^ (bits.length + 1) * (acc + 1) := by ring

theorem toNat_lt (bits : List Bool) : toNat bits < 2 ^ bits.length := by
  simpa [toNat] using foldl_lt bits 0

theorem foldl_eq (bits : List Bool) (acc : Nat) :
    bits.foldl (fun acc b => 2 * acc + b.toNat) acc = 2 ^ bits.length * acc + toNat bits := by
  induction bits generalizing acc with
  | nil => simp [toNat]
  | cons b bits ih =>
    rw [toNat, List.foldl_cons, List.foldl_cons, ih, ih (2 * 0 + b.toNat), List.length_cons]
    ring

theorem toNat_cons (b : Bool) (bits : List Bool) :
    toNat (b :: bits) = 2 ^ bits.length * b.toNat + toNat bits := by
  rw [toNat, List.foldl_cons, foldl_eq]
  simp

theorem ofNat_congr (n v w : Nat) (h : v % 2 ^ n = w % 2 ^ n) : ofNat n v = ofNat n w := by
  induction n with
  | zero => rfl
  | succ n ih =>
    have hbit : v.testBit n = w.testBit n := by
      have := congrArg (·.testBit n) h
      simpa [Nat.testBit_mod_two_pow] using this
    have hlow : v % 2 ^ n = w % 2 ^ n := by
      have := congrArg (· % 2 ^ n) h
      simpa [Nat.mod_mod_of_dvd _ (pow_dvd_pow 2 (Nat.le_succ n))] using this
    rw [ofNat, ofNat, hbit, ih hlow]

theorem ofNat_toNat (bits : List Bool) : ofNat bits.length (toNat bits) = bits := by
  induction bits with
  | nil => rfl
  | cons b bits ih =>
    have hlt := toNat_lt bits
    have hbit : (toNat (b :: bits)).testBit bits.length = b := by
      rw [toNat_cons, Nat.testBit_two_pow_mul_add _ hlt]
      cases b <;> simp
    have hlow : toNat (b :: bits) % 2 ^ bits.length = toNat bits % 2 ^ bits.length := by
      rw [toNat_cons, Nat.mul_add_mod]
    rw [List.length_cons, ofNat, hbit, ofNat_congr _ _ _ hlow, ih]

/-! ## Integers -/

@[simp] theorem length_ofInt (n : Nat) (v : Int) : (ofInt n v).length = n := by
  simp [ofInt]

theorem toInt_eq {bits : List Bool} {n : Nat} (h : bits.length = n) :
    toInt bits = (BitVec.ofNat n (toNat bits)).toInt := by
  subst h
  rfl

/-- An integer in the range of a two's complement is what its bits say. -/
theorem toInt_ofInt {n : Nat} {v : Int} (hn : 0 < n) (hlo : -2 ^ (n - 1) ≤ v)
    (hhi : v < 2 ^ (n - 1)) : toInt (ofInt n v) = v := by
  have hp : (2 : Int) ^ n = 2 * 2 ^ (n - 1) := by
    rw [← pow_succ', Nat.sub_add_cancel hn]
  have hpos : (0 : Int) < 2 ^ (n - 1) := by positivity
  have hround : BitVec.ofNat n (toNat (ofInt n v)) = BitVec.ofInt n v := by
    apply BitVec.eq_of_toNat_eq
    rw [ofInt, toNat_ofNat, BitVec.toNat_ofNat, Nat.mod_mod, Nat.mod_eq_of_lt (BitVec.isLt _)]
  rw [toInt_eq (length_ofInt n v), hround, BitVec.toInt_ofInt]
  apply Int.bmod_eq_of_le <;> push_cast <;> omega

theorem toInt_nil : toInt [] = 0 := by decide

/-- What a nonempty bit string says is in the range of its length. -/
theorem toInt_range {bits : List Bool} (h : bits ≠ []) :
    -2 ^ (bits.length - 1) ≤ toInt bits ∧ toInt bits < 2 ^ (bits.length - 1) := by
  have hlen : 0 < bits.length := List.length_pos_iff.2 h
  exact ⟨BitVec.le_toInt _, BitVec.toInt_lt⟩

/-! ## Bytes -/

@[simp] theorem length_ofByte (b : UInt8) : (ofByte b).length = 8 := length_ofNat 8 _

@[simp] theorem length_ofBytes (bytes : List UInt8) : (ofBytes bytes).length = 8 * bytes.length := by
  induction bytes with
  | nil => rfl
  | cons b bytes ih =>
    rw [ofBytes, List.flatMap_cons, List.length_append, length_ofByte, ← ofBytes, ih]
    simp only [List.length_cons]
    omega

theorem ofBytes_cons (b : UInt8) (bytes : List UInt8) :
    ofBytes (b :: bytes) = ofByte b ++ ofBytes bytes := rfl

theorem toNat_ofByte (b : UInt8) : toNat (ofByte b) = b.toNat := by
  rw [ofByte, toNat_ofNat]
  exact Nat.mod_eq_of_lt b.toNat_lt

/-- Eight bits in front of others make a byte. -/
theorem wholeBytes_append {byte : List Bool} (h : byte.length = 8) (rest : List Bool) :
    wholeBytes (byte ++ rest) = UInt8.ofNat (toNat byte) :: wholeBytes rest := by
  match byte, h with
  | [a, b, c, d, e, f, g, h'], _ => rw [List.cons_append, wholeBytes.eq_def]; rfl

theorem wholeBytes_ofBytes (bytes : List UInt8) : wholeBytes (ofBytes bytes) = bytes := by
  induction bytes with
  | nil => rfl
  | cons b bytes ih =>
    rw [ofBytes_cons, wholeBytes_append (length_ofByte b), ih, toNat_ofByte, UInt8.ofNat_toNat]

theorem ofByte_ofNat {byte : List Bool} (h : byte.length = 8) :
    ofByte (UInt8.ofNat (toNat byte)) = byte := by
  have hlt : toNat byte < 2 ^ 8 := h ▸ toNat_lt byte
  have hval : (UInt8.ofNat (toNat byte)).toNat = toNat byte := by
    rw [UInt8.toNat_ofNat']
    exact Nat.mod_eq_of_lt hlt
  rw [ofByte, hval, ← h, ofNat_toNat]

/-- Whole bytes are the bits they are made of. -/
theorem ofBytes_wholeBytes (n : Nat) {bits : List Bool} (h : bits.length = 8 * n) :
    ofBytes (wholeBytes bits) = bits := by
  induction n generalizing bits with
  | zero =>
    obtain rfl : bits = [] := List.eq_nil_of_length_eq_zero (by omega)
    rfl
  | succ n ih =>
    have htake : (bits.take 8).length = 8 := by
      rw [List.length_take]
      omega
    have hdrop : (bits.drop 8).length = 8 * n := by
      rw [List.length_drop]
      omega
    conv_lhs => rw [← List.take_append_drop 8 bits]
    rw [wholeBytes_append htake, ofBytes_cons, ofByte_ofNat htake, ih hdrop,
      List.take_append_drop]

theorem length_wholeBytes (n : Nat) {bits : List Bool} (h : bits.length = 8 * n) :
    (wholeBytes bits).length = n := by
  have := congrArg List.length (ofBytes_wholeBytes n h)
  rw [length_ofBytes] at this
  omega

/-- The bits that fill up the last byte. -/
def padding (n : Nat) : List Bool := List.replicate (8 * ((n + 7) / 8) - n) false

theorem length_padded (bits : List Bool) :
    (bits ++ padding bits.length).length = 8 * ((bits.length + 7) / 8) := by
  rw [padding, List.length_append, List.length_replicate]
  omega

theorem length_toBytes (bits : List Bool) : (toBytes bits).length = (bits.length + 7) / 8 :=
  length_wholeBytes _ (length_padded bits)

/-- Bytes hold the bits they were made of, and zeros behind them. -/
theorem ofBytes_toBytes (bits : List Bool) :
    ofBytes (toBytes bits) = bits ++ padding bits.length :=
  ofBytes_wholeBytes _ (length_padded bits)

theorem toBytes_ofBytes (bytes : List UInt8) : toBytes (ofBytes bytes) = bytes := by
  have h : padding (ofBytes bytes).length = [] := by
    rw [padding, length_ofBytes]
    exact (List.replicate_eq_nil_iff _).2 (by omega)
  have := congrArg wholeBytes (List.append_nil (ofBytes bytes))
  rw [← h] at this
  exact this.trans (wholeBytes_ofBytes bytes)

end Bits

/-! ## Integer formats -/

theorem bitLength_le_iff {n k : Nat} : bitLength n ≤ k ↔ n < 2 ^ k := by
  unfold bitLength
  split
  · next h => simp [h]
  · next h => rw [Nat.succ_le_iff, Nat.log2_lt h]

namespace IntFormat

theorem fitsUnsigned_iff {n : Nat} {v : Int} : fitsUnsigned n v = true ↔ 0 ≤ v ∧ v < 2 ^ n := by
  simp only [fitsUnsigned, Bool.decide_and, Bool.and_eq_true, decide_eq_true_eq, bitLength_le_iff]
  constructor
  · rintro ⟨h0, h⟩
    refine ⟨h0, ?_⟩
    have : ((v.toNat : Nat) : Int) < ((2 ^ n : Nat) : Int) := by exact_mod_cast h
    push_cast at this
    omega
  · rintro ⟨h0, h⟩
    refine ⟨h0, ?_⟩
    have : ((v.toNat : Nat) : Int) < ((2 ^ n : Nat) : Int) := by
      push_cast
      omega
    exact_mod_cast this

theorem fitsSigned_iff {n : Nat} {v : Int} (hn : 0 < n) :
    fitsSigned n v = true ↔ -2 ^ (n - 1) ≤ v ∧ v < 2 ^ (n - 1) := by
  have hlt : ∀ m : Nat, bitLength m < n ↔ (m : Int) < 2 ^ (n - 1) := by
    intro m
    have : bitLength m < n ↔ bitLength m ≤ n - 1 := by omega
    rw [this, bitLength_le_iff]
    exact_mod_cast Iff.rfl
  have hpos : (0 : Int) < 2 ^ (n - 1) := by positivity
  simp only [fitsSigned, Nat.ne_of_gt hn, if_false, decide_eq_true_eq]
  cases v with
  | ofNat m =>
    rw [magnitudeBits, hlt]
    simp only [Int.ofNat_eq_natCast]
    omega
  | negSucc m =>
    rw [magnitudeBits, hlt, Int.negSucc_eq]
    omega

/-- A wider two's complement holds at least the same integers. -/
theorem fitsSigned_mono {m n : Nat} {v : Int} (h : m ≤ n) (hv : fitsSigned m v = true) :
    fitsSigned n v = true := by
  rcases Nat.eq_zero_or_pos m with rfl | hm
  · obtain rfl : v = 0 := by simpa [fitsSigned] using hv
    rcases Nat.eq_zero_or_pos n with rfl | hn
    · rfl
    · simp [fitsSigned_iff hn]
  · obtain ⟨h1, h2⟩ := (fitsSigned_iff hm).1 hv
    have hle : (2 : Int) ^ (m - 1) ≤ 2 ^ (n - 1) := pow_le_pow_right₀ (by norm_num) (by omega)
    exact (fitsSigned_iff (by omega)).2 ⟨by omega, by omega⟩

end IntFormat
end CellPack
