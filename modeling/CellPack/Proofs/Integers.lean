import Mathlib
import CellPack.Proofs.Words
/-!
# Integers in cells

An integer of a format is refused if it has no form there. The form of any other is read back, and
whatever a cell holds reads as an integer of the format.
-/

namespace CellPack

/-! ## Forms of integers -/

namespace VarWidth

theorem maxBytes_lt (w : VarWidth) : w.maxBytes < 2 ^ w.lenBits := by cases w <;> decide

theorem lenBits_lt (w : VarWidth) : w.lenBits < 128 := by cases w <;> decide

theorem maxBytes_pos (w : VarWidth) : 0 < w.maxBytes := by cases w <;> decide

end VarWidth

namespace IntFormat

/-- The bits of an integer in its format. No integer has a form of zero signed bits. -/
def encode? (f : IntFormat) (v : Int) : Option (List Bool) :=
  match f with
  | int n => if n ≠ 0 ∧ f.fits v then some (Bits.ofInt n v) else none
  | uint n => if f.fits v then some (Bits.ofNat n v.toNat) else none
  | varInt w =>
    (Builder.signedBytes? v w).map fun len => Bits.ofNat w.lenBits len ++ Bits.ofInt (8 * len) v
  | varUint w =>
    let len := (bitLength v.toNat + 7) / 8
    if f.fits v then some (Bits.ofNat w.lenBits len ++ Bits.ofNat (8 * len) v.toNat) else none

theorem signedBytes?_spec {v : Int} {w : VarWidth} {len : Nat}
    (h : Builder.signedBytes? v w = some len) :
    len ≤ w.maxBytes ∧ ((len = 0 ∧ v = 0) ∨ (0 < len ∧ fitsSigned (8 * len) v = true)) := by
  have hmem := List.mem_of_find?_eq_some h
  have hp := List.find?_some h
  rw [List.mem_range] at hmem
  refine ⟨by omega, ?_⟩
  by_cases h0 : len = 0
  · exact .inl ⟨h0, by simpa [h0] using hp⟩
  · exact .inr ⟨by omega, by simpa [h0, fits] using hp⟩

theorem signedBytes?_isSome {v : Int} {w : VarWidth} :
    (Builder.signedBytes? v w).isSome ↔ fitsSigned (8 * w.maxBytes) v = true := by
  constructor
  · intro h
    obtain ⟨len, hlen⟩ := Option.isSome_iff_exists.1 h
    obtain ⟨hle, ⟨-, rfl⟩ | ⟨-, hf⟩⟩ := signedBytes?_spec hlen
    · exact fitsSigned_mono (m := 0) (Nat.zero_le _) rfl
    · exact fitsSigned_mono (Nat.mul_le_mul_left 8 hle) hf
  · intro h
    have hpos := w.maxBytes_pos
    rw [Builder.signedBytes?, List.find?_isSome]
    exact ⟨w.maxBytes, by simp, by simp [Nat.ne_of_gt hpos, fits, h]⟩

/-- Exactly the integers of a format have a form in it, unless it has no bits for a sign. -/
theorem isSome_encode? {f : IntFormat} (hf : f ≠ int 0) (v : Int) :
    (f.encode? v).isSome ↔ f.fits v = true := by
  cases f with
  | int n =>
    have : n ≠ 0 := fun h => hf (by rw [h])
    simp [encode?, this]
  | uint n => simp [encode?]
  | varInt w => simp only [encode?, Option.isSome_map, signedBytes?_isSome, fits]
  | varUint w => simp [encode?]

theorem byteLength_le {v : Int} {w : VarWidth} (h : fitsUnsigned (8 * w.maxBytes) v = true) :
    (bitLength v.toNat + 7) / 8 ≤ w.maxBytes := by
  simp only [fitsUnsigned, Bool.decide_and, Bool.and_eq_true, decide_eq_true_eq] at h
  omega

theorem length_encode? {f : IntFormat} {v : Int} {bits : List Bool}
    (h : f.encode? v = some bits) : bits.length ≤ f.maxBits := by
  cases f with
  | int n =>
    obtain ⟨-, rfl⟩ : _ ∧ Bits.ofInt n v = bits := by simpa [encode?] using h
    simp [maxBits]
  | uint n =>
    obtain ⟨-, rfl⟩ : _ ∧ Bits.ofNat n v.toNat = bits := by simpa [encode?] using h
    simp [maxBits]
  | varInt w =>
    obtain ⟨len, hlen, rfl⟩ := Option.map_eq_some_iff.1 h
    have := (signedBytes?_spec hlen).1
    simp only [List.length_append, Bits.length_ofNat, Bits.length_ofInt, maxBits]
    omega
  | varUint w =>
    simp only [encode?, Option.ite_none_right_eq_some, Option.some.injEq] at h
    obtain ⟨hf, rfl⟩ := h
    have := byteLength_le hf
    simp only [List.length_append, Bits.length_ofNat, maxBits]
    omega

end IntFormat

namespace Builder

theorem puts_storeBigInt (v : Int) (n : Nat) :
    Write.Puts (storeBigInt v n) (((IntFormat.int n).encode? v).map ofBits) := by
  unfold storeBigInt
  apply puts_guard <;> intro h
  · rw [IntFormat.encode?, if_neg (by simpa [Decidable.or_iff_not_imp_left] using h)]
    rfl
  · rw [IntFormat.encode?, if_pos (by simpa using h)]
    exact puts_pushed (Bits.length_ofInt n v)

theorem puts_storeBigUint (v n : Nat) :
    Write.Puts (storeBigUint v n)
      (if bitLength v ≤ n then some (ofBits (Bits.ofNat n v)) else none) := by
  unfold storeBigUint
  apply puts_guard <;> intro h
  · exact if_neg (by omega)
  · rw [if_pos (by omega)]
    exact puts_pushed (Bits.length_ofNat n v)

theorem puts_storeInt (w : Word) (n : Nat) :
    Write.Puts (storeInt w n) (((IntFormat.int n).encode? w.toInt).map ofBits) := by
  rw [storeInt_eq]
  exact puts_storeBigInt w.toInt n

theorem puts_storeUint (w : Word) (n : Nat) :
    Write.Puts (storeUint w n)
      (if bitLength w.toNat ≤ n then some (ofBits (Bits.ofNat n w.toNat)) else none) := by
  rw [storeUint_eq]
  exact puts_storeBigUint w.toNat n

/-- A small number in the bits of a word. -/
theorem appends_storeUint {v n : Nat} (hn : n < 128) (hv : v < 2 ^ n) :
    Write.Appends (storeUint (BitVec.ofNat 128 v) n) (some (ofBits (Bits.ofNat n v))) := by
  have hword : (BitVec.ofNat 128 v).toNat = v := by
    rw [BitVec.toNat_ofNat]
    exact Nat.mod_eq_of_lt (hv.trans (Nat.pow_lt_pow_right (by decide) hn))
  have hputs := puts_storeUint (BitVec.ofNat 128 v) n
  rw [hword, if_pos (bitLength_le_iff.2 hv)] at hputs
  exact hputs.appends

/-- A number of bytes, then so many bytes. -/
theorem puts_counted {w : VarWidth} {len : Nat} {write : Write Unit} {bits : List Bool}
    (hlen : len ≤ w.maxBytes) (hbits : bits.length = 8 * len)
    (h : Write.Appends write (some (ofBits bits))) :
    Write.Puts (do
        ensureBits (w.lenBits + 8 * len)
        storeUint (BitVec.ofNat 128 len) w.lenBits
        write)
      (some (ofBits (Bits.ofNat w.lenBits len ++ bits))) := by
  refine puts_ensured (by rw [List.length_append, Bits.length_ofNat, hbits]) ?_
  rw [ofBits_append]
  exact appends_seq (appends_storeUint w.lenBits_lt (hlen.trans_lt w.maxBytes_lt)) h

theorem puts_storeVarUint (v : Nat) (w : VarWidth) :
    Write.Puts (storeVarUint v w) (((IntFormat.varUint w).encode? v).map ofBits) := by
  have hfits : (IntFormat.varUint w).fits v = true ↔ (bitLength v + 7) / 8 ≤ w.maxBytes := by
    simp only [IntFormat.fits, IntFormat.fitsUnsigned, Int.natCast_nonneg, true_and,
      decide_eq_true_eq, Int.toNat_natCast]
    omega
  unfold storeVarUint
  apply puts_guard <;> intro h
  · rw [IntFormat.encode?, if_neg (by rw [hfits]; omega)]
    rfl
  · have hlen : (bitLength v + 7) / 8 ≤ w.maxBytes := by omega
    have hvalue := puts_storeBigUint v (8 * ((bitLength v + 7) / 8))
    rw [if_pos (by omega)] at hvalue
    rw [IntFormat.encode?, if_pos (hfits.2 hlen)]
    exact puts_counted hlen (Bits.length_ofNat _ v) hvalue.appends

theorem puts_storeVarInt (v : Int) (w : VarWidth) :
    Write.Puts (storeVarInt v w) (((IntFormat.varInt w).encode? v).map ofBits) := by
  cases h : signedBytes? v w with
  | none =>
    simp only [storeVarInt, IntFormat.encode?, h]
    exact puts_throw _
  | some len =>
    obtain ⟨hle, hcase⟩ := IntFormat.signedBytes?_spec h
    simp only [storeVarInt, IntFormat.encode?, h, Option.map_some]
    rcases hcase with ⟨rfl, rfl⟩ | ⟨hpos, hf⟩
    -- zero has a length and no bytes
    · exact puts_counted hle rfl appends_nothing
    · have hvalue := puts_storeBigInt v (8 * len)
      have hfits : 8 * len ≠ 0 ∧ (IntFormat.int (8 * len)).fits v = true :=
        ⟨by omega, by simpa [IntFormat.fits] using hf⟩
      rw [IntFormat.encode?, if_pos hfits] at hvalue
      rw [if_pos hpos]
      exact puts_counted hle (Bits.length_ofInt _ v) hvalue.appends

end Builder

namespace Machine

theorem puts_storeInt (f : IntFormat) (v : Int) :
    Write.Puts (storeInt f v) ((f.encode? v).map Builder.ofBits) := by
  have hneg : ∀ n, v < 0 → IntFormat.fitsUnsigned n v = false := by
    intro n h
    simp [IntFormat.fitsUnsigned, Int.not_le.2 h]
  cases f with
  | int n => exact Builder.puts_storeBigInt v n
  | varInt w => exact Builder.puts_storeVarInt v w
  | uint n =>
    by_cases h : v < 0
    · simp only [storeInt, natOrRange, if_pos h, IntFormat.encode?, IntFormat.fits, hneg _ h]
      exact Builder.puts_throw n
    · have hpiece : ((IntFormat.uint n).encode? v).map Builder.ofBits =
          if bitLength v.toNat ≤ n then some (.ofBits (Bits.ofNat n v.toNat)) else none := by
        simp only [IntFormat.encode?, IntFormat.fits, IntFormat.fitsUnsigned, Int.not_lt.1 h,
          true_and, decide_eq_true_eq]
        split <;> rfl
      simp only [storeInt, natOrRange, if_neg h, hpiece]
      exact Builder.puts_storeBigUint v.toNat n
  | varUint w =>
    by_cases h : v < 0
    · simp only [storeInt, natOrRange, if_pos h, IntFormat.encode?, IntFormat.fits, hneg _ h]
      exact Builder.puts_throw _
    · have hputs := Builder.puts_storeVarUint v.toNat w
      rw [Int.toNat_of_nonneg (Int.not_lt.1 h)] at hputs
      simp only [storeInt, natOrRange, if_neg h]
      exact hputs

end Machine

namespace Slice

theorem yields_loadUint {n : Nat} (hn : n ≤ 128) :
    Load.Yields (loadUint n) (fun w => w.toNat < 2 ^ n) := by
  refine (yields_takeBits n).bind fun raw hraw => ?_
  subst hraw
  have hsplit : raw.length - 128 = 0 := by omega
  simp only [hsplit, List.take_zero, List.any_nil, List.drop_zero]
  refine Load.yields_pure ?_
  rw [BitVec.toNat_ofNat]
  exact (Nat.mod_le _ _).trans_lt (Bits.toNat_lt raw)

theorem reads_loadBigInt {n : Nat} {v : Int} {bits : List Bool}
    (h : (IntFormat.int n).encode? v = some bits) :
    Load.Reads (loadBigInt n) (Builder.ofBits bits) v := by
  simp only [IntFormat.encode?, Option.ite_none_right_eq_some, Option.some.injEq] at h
  obtain ⟨⟨hn, hf⟩, rfl⟩ := h
  obtain ⟨hlo, hhi⟩ := (IntFormat.fitsSigned_iff (by omega)).1 hf
  exact (reads_takeBits (by simp)).map _ (Bits.toInt_ofInt (by omega) hlo hhi)

theorem yields_loadBigInt (n : Nat) :
    Load.Yields (loadBigInt n) (fun v => IntFormat.fitsSigned n v = true) := by
  refine (yields_takeBits n).map fun bits hbits => ?_
  subst hbits
  by_cases h : bits = []
  · subst h
    rw [Bits.toInt_nil]
    rfl
  · exact (IntFormat.fitsSigned_iff (List.length_pos_iff.2 h)).2 (Bits.toInt_range h)

theorem reads_loadBigUint {n v : Nat} (hv : v < 2 ^ n) :
    Load.Reads (loadBigUint n) (Builder.ofBits (Bits.ofNat n v)) v :=
  (reads_takeBits (by simp)).map _ (by rw [Bits.toNat_ofNat, Nat.mod_eq_of_lt hv])

/-- A word is read from its digits in any number of bits. -/
theorem reads_loadUint_word {n : Nat} {w : Word} (h : w.toNat < 2 ^ n) :
    Load.Reads (loadUint n) (Builder.ofBits (Bits.ofNat n w.toNat)) w := by
  intro rest
  rw [loadUint_eq, Step.run_bind_ok (reads_loadBigUint h rest), if_pos w.isLt, BitVec.ofNat_toNat,
    BitVec.setWidth_eq]
  rfl

theorem reads_loadUint {n v : Nat} (hn : n ≤ 128) (hv : v < 2 ^ n) :
    Load.Reads (loadUint n) (Builder.ofBits (Bits.ofNat n v)) (BitVec.ofNat 128 v) := by
  have hword : (BitVec.ofNat 128 v).toNat = v := by
    rw [BitVec.toNat_ofNat]
    exact Nat.mod_eq_of_lt (hv.trans_le (Nat.pow_le_pow_right (by decide) hn))
  have hread := reads_loadUint_word (w := BitVec.ofNat 128 v) (n := n) (by rwa [hword])
  rwa [hword] at hread

theorem yields_loadBigUint (n : Nat) : Load.Yields (loadBigUint n) (fun v => v < 2 ^ n) :=
  (yields_takeBits n).map fun bits hbits => hbits ▸ Bits.toNat_lt bits

/-- A length in front of a value. -/
theorem toNat_length {n len : Nat} (hn : n < 128) (h : len < 2 ^ n) :
    (BitVec.ofNat 128 len).toNat = len := by
  rw [BitVec.toNat_ofNat]
  exact Nat.mod_eq_of_lt (h.trans (Nat.pow_lt_pow_right (by decide) hn))

theorem reads_loadVarUint {v : Int} {w : VarWidth} {bits : List Bool}
    (h : (IntFormat.varUint w).encode? v = some bits) :
    Load.Reads (loadVarUint w) (Builder.ofBits bits) v.toNat := by
  simp only [IntFormat.encode?, Option.ite_none_right_eq_some, Option.some.injEq] at h
  obtain ⟨hf, rfl⟩ := h
  have hlen := (IntFormat.byteLength_le hf).trans_lt w.maxBytes_lt
  have hvalue : v.toNat < 2 ^ (8 * ((bitLength v.toNat + 7) / 8)) :=
    bitLength_le_iff.1 (by omega)
  rw [Builder.ofBits_append]
  refine (reads_loadUint w.lenBits_lt.le hlen).bind ?_
  rw [toNat_length w.lenBits_lt hlen]
  exact reads_loadBigUint hvalue

theorem reads_loadVarInt {v : Int} {w : VarWidth} {bits : List Bool}
    (h : (IntFormat.varInt w).encode? v = some bits) :
    Load.Reads (loadVarInt w) (Builder.ofBits bits) v := by
  obtain ⟨len, hlen, rfl⟩ := Option.map_eq_some_iff.1 h
  obtain ⟨hle, hcase⟩ := IntFormat.signedBytes?_spec hlen
  have hlt := hle.trans_lt w.maxBytes_lt
  rw [Builder.ofBits_append]
  refine (reads_loadUint w.lenBits_lt.le hlt).bind ?_
  rw [toNat_length w.lenBits_lt hlt]
  rcases hcase with ⟨rfl, rfl⟩ | ⟨hpos, hf⟩
  -- no bytes are read as zero
  · exact (reads_takeBits (by simp)).map Bits.toInt Bits.toInt_nil
  · exact reads_loadBigInt (if_pos ⟨by omega, hf⟩)

/-- What a length of so many bits announces is within the format. -/
theorem announced_le (w : VarWidth) {len : Word} (h : len.toNat < 2 ^ w.lenBits) :
    8 * len.toNat ≤ 8 * w.maxBytes := by
  have : w.maxBytes = 2 ^ w.lenBits - 1 := by cases w <;> decide
  omega

theorem yields_loadVarUint (w : VarWidth) :
    Load.Yields (loadVarUint w) (fun v => v < 2 ^ (8 * w.maxBytes)) := by
  refine (yields_loadUint w.lenBits_lt.le).bind fun len hlen => ?_
  exact (yields_loadBigUint _).mono fun v hv =>
    hv.trans_le (Nat.pow_le_pow_right (by decide) (announced_le w hlen))

theorem yields_loadVarInt (w : VarWidth) :
    Load.Yields (loadVarInt w) (fun v => IntFormat.fitsSigned (8 * w.maxBytes) v = true) := by
  refine (yields_loadUint w.lenBits_lt.le).bind fun len hlen => ?_
  exact (yields_loadBigInt _).mono fun v hv => IntFormat.fitsSigned_mono (announced_le w hlen) hv

end Slice

namespace Machine

theorem fitsUnsigned_ofNat {n v : Nat} (h : v < 2 ^ n) :
    IntFormat.fitsUnsigned n (Int.ofNat v) = true := by
  have : (v : Int) < 2 ^ n := by exact_mod_cast h
  exact IntFormat.fitsUnsigned_iff.2 ⟨Int.natCast_nonneg v, this⟩

theorem reads_loadInt {f : IntFormat} {v : Int} {bits : List Bool}
    (h : f.encode? v = some bits) : Load.Reads (loadInt f) (Builder.ofBits bits) v := by
  cases f with
  | int n => exact Slice.reads_loadBigInt h
  | varInt w => exact Slice.reads_loadVarInt h
  | uint n =>
    simp only [IntFormat.encode?, Option.ite_none_right_eq_some, Option.some.injEq] at h
    obtain ⟨hf, rfl⟩ := h
    obtain ⟨h0, hlt⟩ := IntFormat.fitsUnsigned_iff.1 hf
    have hnat : v.toNat < 2 ^ n := by
      zify
      omega
    have := (Slice.reads_loadBigUint hnat).map Int.ofNat (Int.toNat_of_nonneg h0)
    rwa [← bind_pure_comp] at this
  | varUint w =>
    have h0 : 0 ≤ v := by
      simp only [IntFormat.encode?, Option.ite_none_right_eq_some] at h
      exact (IntFormat.fitsUnsigned_iff.1 h.1).1
    have := (Slice.reads_loadVarUint h).map Int.ofNat (Int.toNat_of_nonneg h0)
    rwa [← bind_pure_comp] at this

/-- Whatever a slice holds reads as an integer that the format can hold. -/
theorem yields_loadInt (f : IntFormat) : Load.Yields (loadInt f) (fun v => f.fits v = true) := by
  cases f with
  | int n => exact Slice.yields_loadBigInt n
  | varInt w => exact Slice.yields_loadVarInt w
  | uint n =>
    exact (Slice.yields_loadBigUint n).bind fun v hv => Load.yields_pure (fitsUnsigned_ofNat hv)
  | varUint w =>
    exact (Slice.yields_loadVarUint w).bind fun v hv => Load.yields_pure (fitsUnsigned_ofNat hv)

end Machine
end CellPack
