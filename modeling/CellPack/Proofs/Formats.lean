import Mathlib
import CellPack.Proofs.Contents
import CellPack.Proofs.RoundTrip
/-!
# Ranges of integer formats

Three places draw the line between the integers that a format holds and those that it does not: the
bit lengths that `IntFormat.fits` compares, the search for a number of bytes with the check of the
sign when an integer is written, and the bits themselves when one is read. All three draw it at the
ends of one range (`Machine.storeInt_exact`).
-/

namespace CellPack

namespace IntFormat

/-! ## Ranges -/

/-- The integers of a two's complement of so many bits. Zero needs none. -/
def SignedRange (bits : Nat) (v : Int) : Prop :=
  if bits = 0 then v = 0 else -2 ^ (bits - 1) ≤ v ∧ v ≤ 2 ^ (bits - 1) - 1

/-- The natural numbers of so many binary digits. -/
def UnsignedRange (bits : Nat) (v : Int) : Prop := 0 ≤ v ∧ v ≤ 2 ^ bits - 1

/-- The integers that the format writes in so many bits. -/
def RangeOf (f : IntFormat) (bits : Nat) (v : Int) : Prop :=
  if f.signed then SignedRange bits v else UnsignedRange bits v

/-- The greatest number of bits behind the length prefix. -/
def valueBits : IntFormat → Nat
  | int n | uint n => n
  | varInt w | varUint w => 8 * w.maxBytes

/-- The least number of bytes that hold an integer. -/
noncomputable def leastBytes (f : IntFormat) (v : Int) : Nat := sInf {k | f.RangeOf (8 * k) v}

/-- The bits that an integer takes: those of the format, or a prefix and the fewest bytes. -/
noncomputable def width (f : IntFormat) (v : Int) : Nat :=
  match f with
  | int n | uint n => n
  | varInt w | varUint w => w.lenBits + 8 * f.leastBytes v

theorem fitsSigned_iff_range {n : Nat} {v : Int} : fitsSigned n v = true ↔ SignedRange n v := by
  unfold SignedRange
  split
  · next h => simp [fitsSigned, h]
  · next h =>
    rw [fitsSigned_iff (Nat.pos_of_ne_zero h)]
    omega

theorem fitsUnsigned_iff_range {n : Nat} {v : Int} :
    fitsUnsigned n v = true ↔ UnsignedRange n v := by
  rw [fitsUnsigned_iff, UnsignedRange]
  omega

/-- The comparison of bit lengths accepts exactly the integers in range. -/
theorem fits_iff_range (f : IntFormat) (v : Int) : f.fits v = true ↔ f.RangeOf f.valueBits v := by
  cases f with
  | int n => exact fitsSigned_iff_range
  | varInt w => exact fitsSigned_iff_range
  | uint n => exact fitsUnsigned_iff_range
  | varUint w => exact fitsUnsigned_iff_range

/-! ## Widths -/

theorem isLeast_signedBytes? {v : Int} {w : VarWidth} {len : Nat}
    (h : Builder.signedBytes? v w = some len) : IsLeast {k | SignedRange (8 * k) v} len := by
  obtain ⟨hlen, -, hless⟩ := List.find?_range_eq_some.1 h
  have hiff : ∀ k, (if k = 0 then decide (v = 0) else (int (8 * k)).fits v) = true ↔
      SignedRange (8 * k) v := by
    intro k
    rw [← fitsSigned_iff_range]
    by_cases hk : k = 0
    · simp [hk, fitsSigned]
    · rw [if_neg hk, fits]
  refine ⟨(hiff len).1 hlen, fun k hk => ?_⟩
  by_contra hlt
  have hnot := hless k (Nat.not_le.1 hlt)
  rw [(hiff k).2 hk] at hnot
  cases hnot

theorem isLeast_byteLength {v : Int} (hv : 0 ≤ v) :
    IsLeast {k | UnsignedRange (8 * k) v} ((bitLength v.toNat + 7) / 8) := by
  have hiff : ∀ k, UnsignedRange (8 * k) v ↔ bitLength v.toNat ≤ 8 * k := by
    intro k
    rw [← fitsUnsigned_iff_range]
    simp [fitsUnsigned, hv]
  exact ⟨(hiff _).2 (by omega), fun k hk => by have := (hiff k).1 hk; omega⟩

/-- The form of an integer has the width of the integer. -/
theorem length_encode?_eq {f : IntFormat} {v : Int} {bits : List Bool}
    (h : f.encode? v = some bits) : bits.length = f.width v := by
  cases f with
  | int n =>
    obtain ⟨-, rfl⟩ : _ ∧ Bits.ofInt n v = bits := by simpa [encode?] using h
    exact Bits.length_ofInt n v
  | uint n =>
    obtain ⟨-, rfl⟩ : _ ∧ Bits.ofNat n v.toNat = bits := by simpa [encode?] using h
    exact Bits.length_ofNat n v.toNat
  | varInt w =>
    obtain ⟨len, hlen, rfl⟩ := Option.map_eq_some_iff.1 h
    have hleast : (varInt w).leastBytes v = len := (isLeast_signedBytes? hlen).csInf_eq
    rw [List.length_append, Bits.length_ofNat, Bits.length_ofInt, width, hleast]
  | varUint w =>
    obtain ⟨hf, hbits⟩ := Option.ite_none_right_eq_some.1 h
    obtain rfl := Option.some.inj hbits
    have hleast : (varUint w).leastBytes v = (bitLength v.toNat + 7) / 8 :=
      (isLeast_byteLength (fitsUnsigned_iff.1 hf).1).csInf_eq
    rw [List.length_append, Bits.length_ofNat, Bits.length_ofNat, width, hleast]

end IntFormat

/-- Bits are written where there is room for them, behind what the builder holds. -/
theorem Write.Puts.run_eq_ok_iff {w : Write Unit} {piece : Option (List Bool)}
    (h : w.Puts (piece.map Builder.ofBits)) {b b' : Builder} (hb : b.HasRoom {}) :
    w.run b = (.ok (), b') ↔
      ∃ bits, piece = some bits ∧ bits.length ≤ maxCellBits - b.bits.length
        ∧ b' = b ++ .ofBits bits := by
  have hfree : b.bits.length ≤ maxCellBits := hb.1
  cases piece with
  | none =>
    obtain ⟨n, hrun⟩ := h.appends b
    rw [hrun]
    exact ⟨nofun, nofun⟩
  | some bits =>
    have hroom : b.HasRoom (.ofBits bits) ↔ bits.length ≤ maxCellBits - b.bits.length := by
      have hiff : b.HasRoom (.ofBits bits) ↔ b.bits.length + bits.length ≤ maxCellBits :=
        and_iff_left hb.2
      rw [hiff]
      omega
    by_cases hfits : b.HasRoom (.ofBits bits)
    · rw [h.appends b hfits]
      constructor
      · rintro ⟨⟩
        exact ⟨bits, rfl, hroom.1 hfits, rfl⟩
      · rintro ⟨_, ⟨⟩, -, rfl⟩
        rfl
    · rw [h.full rfl hb hfits]
      constructor
      · nofun
      · rintro ⟨_, ⟨⟩, hle, -⟩
        exact absurd (hroom.2 hle) hfits

namespace Machine

/--
In a format that has a name, exactly the integers in range fit. Those are written to any builder
that has room for their width, which is that of the format or the prefix and the fewest bytes, and
never more than a layout reckons with. They are read back wherever they stand, and whatever bits are
read as an integer of the format, it is in range.
-/
theorem storeInt_exact {text : String} {f : IntFormat} (hf : IntFormat.ofText? text = some f)
    (v : Int) :
    (f.fits v = true ↔ f.RangeOf f.valueBits v)
    ∧ (∀ b : Builder, b.HasRoom {} →
        ((∃ b', (storeInt f v).run b = (.ok (), b')) ↔
          f.fits v = true ∧ f.width v ≤ maxCellBits - b.bits.length)
        ∧ ∀ b', (storeInt f v).run b = (.ok (), b') → ∃ bits,
            b' = b ++ .ofBits bits ∧ bits.length = f.width v
            ∧ ∀ rest, (loadInt f).run ((Builder.ofBits bits).onto rest) = (.ok v, rest))
    ∧ (f.fits v = true → f.width v ≤ f.maxBits)
    ∧ ∀ s x s', (loadInt f).run s = (.ok x, s') → f.fits x = true := by
  have hfits := IntFormat.isSome_encode? (IntFormat.ne_of_ofText? hf) v
  have hrun {b b' : Builder} (hb : b.HasRoom {}) : (storeInt f v).run b = (.ok (), b') ↔
      ∃ bits, f.encode? v = some bits ∧ bits.length ≤ maxCellBits - b.bits.length
        ∧ b' = b ++ .ofBits bits :=
    (puts_storeInt f v).run_eq_ok_iff hb
  refine ⟨f.fits_iff_range v, fun b hb => ⟨⟨?_, ?_⟩, fun b' h => ?_⟩, fun h => ?_,
    fun s x s' h => (yields_loadInt f s).ok_of_run h⟩
  · rintro ⟨b', h⟩
    obtain ⟨bits, hbits, hle, -⟩ := (hrun hb).1 h
    rw [IntFormat.length_encode?_eq hbits] at hle
    exact ⟨hfits.1 (Option.isSome_iff_exists.2 ⟨bits, hbits⟩), hle⟩
  · rintro ⟨h, hle⟩
    obtain ⟨bits, hbits⟩ := Option.isSome_iff_exists.1 (hfits.2 h)
    rw [← IntFormat.length_encode?_eq hbits] at hle
    exact ⟨_, (hrun hb).2 ⟨bits, hbits, hle, rfl⟩⟩
  · obtain ⟨bits, hbits, -, rfl⟩ := (hrun hb).1 h
    exact ⟨bits, rfl, IntFormat.length_encode?_eq hbits, reads_loadInt hbits⟩
  · obtain ⟨bits, hbits⟩ := Option.isSome_iff_exists.1 (hfits.2 h)
    rw [← IntFormat.length_encode?_eq hbits]
    exact IntFormat.length_encode? hbits

/-- The least integer of two bytes takes a prefix of four bits and both bytes. -/
theorem storeInt_exact_sample : IntFormat.ofText? "varint16" = some (.varInt .w16)
    ∧ ({} : Builder).HasRoom {}
    ∧ ∃ bits, (storeInt (.varInt .w16) (-32768)).run {} = (.ok (), .ofBits bits)
      ∧ bits.length = 20
      ∧ (loadInt (.varInt .w16)).run ⟨bits, []⟩ = (.ok (-32768), ⟨[], []⟩) := by
  have hf : IntFormat.ofText? "varint16" = some (.varInt .w16) := by decide
  have hb : ({} : Builder).HasRoom {} := ⟨Nat.zero_le _, Nat.zero_le _⟩
  obtain ⟨-, hwrite, -⟩ := storeInt_exact hf (-32768)
  have hrun : (storeInt (.varInt .w16) (-32768)).run {} =
      (.ok (), .ofBits (Bits.ofNat 4 2 ++ Bits.ofInt 16 (-32768))) := rfl
  obtain ⟨bits, hbits, -, hread⟩ := (hwrite {} hb).2 _ hrun
  obtain rfl : _ = bits := congrArg Builder.bits hbits
  have hread := hread ⟨[], []⟩
  rw [Builder.onto, Builder.bits_ofBits, Builder.refs_ofBits, List.append_nil] at hread
  exact ⟨hf, hb, _, hrun, rfl, hread⟩

end Machine
end CellPack
