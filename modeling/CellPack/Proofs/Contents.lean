import Mathlib
import CellPack.Proofs.Integers
/-!
# Bit strings, addresses, texts and maps in cells

Each of them takes one piece, which reads as what it was written from. A bit string is cut to its
length, and reads as whole bytes with zeros behind the last bit.
-/

namespace CellPack

/-! ## Bit strings -/

namespace Bits

/-- The bytes of the first `n` bits of others, with zeros behind them. -/
def cut (n : Nat) (bytes : List UInt8) : List UInt8 := toBytes ((ofBytes bytes).take n)

theorem length_take_ofBytes {n : Nat} {bytes : List UInt8} (h : n ≤ 8 * bytes.length) :
    ((ofBytes bytes).take n).length = n := by
  rw [List.length_take, length_ofBytes]
  omega

theorem cut_all (bytes : List UInt8) : cut (8 * bytes.length) bytes = bytes := by
  rw [cut, ← length_ofBytes, List.take_length, toBytes_ofBytes]

theorem drop_ofBytes_toBytes (bits : List Bool) :
    ∀ b ∈ (ofBytes (toBytes bits)).drop bits.length, b = false := by
  rw [ofBytes_toBytes, List.drop_left]
  exact fun b hb => List.eq_of_mem_replicate hb

/-- Bytes for so many bits, with zeros behind them, are kept as they are. -/
theorem cut_of_zeros {n : Nat} {bytes : List UInt8} (hlen : bytes.length = (n + 7) / 8)
    (zeros : ∀ b ∈ (ofBytes bytes).drop n, b = false) : cut n bytes = bytes := by
  have hn : ((ofBytes bytes).take n).length = n := length_take_ofBytes (by omega)
  have hdrop : (ofBytes bytes).drop n = padding n := by
    rw [List.eq_replicate_of_mem zeros, padding, List.length_drop, length_ofBytes, hlen]
  have hbits : (ofBytes bytes).take n ++ padding n = ofBytes bytes := by
    rw [← hdrop, List.take_append_drop]
  have hcut : ofBytes (cut n bytes) = ofBytes bytes := by
    rw [cut, ofBytes_toBytes, hn, hbits]
  exact (wholeBytes_ofBytes _).symm.trans ((congrArg wholeBytes hcut).trans (wholeBytes_ofBytes bytes))

end Bits

namespace Builder

theorem puts_storeBits (bytes : List UInt8) (n : Nat) :
    Write.Puts (storeBits bytes n)
      (if n ≤ 8 * bytes.length then some (ofBits ((Bits.ofBytes bytes).take n)) else none) := by
  unfold storeBits
  apply puts_guard <;> intro h
  · exact if_neg (by omega)
  · rw [if_pos (by omega)]
    exact puts_pushed (Bits.length_take_ofBytes (Nat.not_lt.1 h))

end Builder

namespace Slice

theorem reads_loadBits {bytes : List UInt8} {n : Nat} (h : n ≤ 8 * bytes.length) :
    Load.Reads (loadBits n) (Builder.ofBits ((Bits.ofBytes bytes).take n)) (Bits.cut n bytes) := by
  have := (reads_takeBits (Bits.length_take_ofBytes h)).map Bits.toBytes rfl
  rwa [← bind_pure_comp] at this

theorem yields_loadBits (n : Nat) :
    Load.Yields (loadBits n) (fun bytes => bytes.length = (n + 7) / 8
      ∧ ∀ b ∈ (Bits.ofBytes bytes).drop n, b = false) := by
  refine (yields_takeBits n).bind fun bits hbits => Load.yields_pure ?_
  subst hbits
  exact ⟨Bits.length_toBytes bits, Bits.drop_ofBytes_toBytes bits⟩

end Slice

/-! ## Addresses -/

/-- The bits of an address: a tag, an absent prefix, the workchain and the hash. -/
def Address.encode (a : Address) : List Bool :=
  [true, false] ++ [false] ++ Bits.ofInt 8 a.workchain ++ Bits.ofBytes a.hash

theorem Address.length_encode (a : Address) : a.encode.length = addressBits := by
  simp [encode, a.hash_length, addressBits]

namespace Builder

/-- A small integer in the bits of a word. -/
theorem appends_storeInt {v : Int} {n : Nat} (h0 : 0 < n) (hn : n < 128) (hlo : -2 ^ (n - 1) ≤ v)
    (hhi : v < 2 ^ (n - 1)) :
    Write.Appends (storeInt (BitVec.ofInt 128 v) n) (some (ofBits (Bits.ofInt n v))) := by
  have hwide : (2 : Int) ^ (n - 1) ≤ 2 ^ 127 := pow_le_pow_right₀ (by norm_num) (by omega)
  have hfits : n ≠ 0 ∧ (IntFormat.int n).fits v = true :=
    ⟨by omega, (IntFormat.fitsSigned_iff h0).2 ⟨hlo, hhi⟩⟩
  have hputs := puts_storeInt (BitVec.ofInt 128 v) n
  rw [toInt_ofInt_of_isWord ⟨by omega, by omega⟩, IntFormat.encode?, if_pos hfits] at hputs
  exact hputs.appends

theorem puts_storeAddress (a : Address) :
    Write.Puts (storeAddress a) (some (ofBits a.encode)) := by
  have htag : Write.Appends (storeUint 0b10 2) (some (ofBits [true, false])) :=
    appends_storeUint (v := 2) (n := 2) (by decide) (by decide)
  have hchain : Write.Appends (storeInt (BitVec.ofInt 128 a.workchain) 8)
      (some (ofBits (Bits.ofInt 8 a.workchain))) := by
    obtain ⟨hlo, hhi⟩ := a.workchain_range
    exact appends_storeInt (by decide) (by decide) (by omega) (by omega)
  have hhash : Write.Appends (storeBits a.hash 256) (some (ofBits (Bits.ofBytes a.hash))) := by
    have := (puts_storeBits a.hash 256).appends
    rw [if_pos (by simp [a.hash_length]), List.take_of_length_le (by simp [a.hash_length])] at this
    exact this
  have hrest := appends_seq htag
    (appends_seq (puts_storeBit false).appends (appends_seq hchain hhash))
  refine puts_ensured a.length_encode ?_
  simp only [Address.encode, List.append_assoc, ofBits_append]
  exact hrest

end Builder

namespace Slice

/-- A word is read from its two's complement in any number of bits. -/
theorem reads_loadInt_word {n : Nat} {w : Word} (hn : n ≠ 0)
    (h : (IntFormat.int n).fits w.toInt = true) :
    Load.Reads (loadInt n) (Builder.ofBits (Bits.ofInt n w.toInt)) w := by
  intro rest
  have hread := reads_loadBigInt (if_pos ⟨hn, h⟩) rest
  rw [loadInt_eq, Step.run_bind_ok hread, if_pos (isWord_toInt w), BitVec.ofInt_toInt]
  rfl

theorem reads_loadInt {n : Nat} {v : Int} (h0 : 0 < n) (hn : n ≤ 128) (hlo : -2 ^ (n - 1) ≤ v)
    (hhi : v < 2 ^ (n - 1)) :
    Load.Reads (loadInt n) (Builder.ofBits (Bits.ofInt n v)) (BitVec.ofInt 128 v) := by
  have hwide : (2 : Int) ^ (n - 1) ≤ 2 ^ 127 := pow_le_pow_right₀ (by norm_num) (by omega)
  have hword := toInt_ofInt_of_isWord (x := v) ⟨by omega, by omega⟩
  have hfits : (IntFormat.int n).fits v = true := (IntFormat.fitsSigned_iff h0).2 ⟨hlo, hhi⟩
  have hread := reads_loadInt_word (n := n) (w := BitVec.ofInt 128 v) (by omega) (by rwa [hword])
  rwa [hword] at hread

theorem yields_loadInt {n : Nat} (hn : n ≤ 128) : Load.Yields (loadInt n) (fun _ => True) := by
  refine (yields_takeBits n).bind fun raw hraw => ?_
  have hsplit : raw.length - 128 = 0 := by omega
  simp only [hsplit, List.take_zero, List.any_nil, List.drop_zero]
  exact Load.yields_pure trivial

theorem reads_loadAddress (a : Address) :
    Load.Reads loadAddress (Builder.ofBits a.encode) a := by
  have htag : Load.Reads (loadUint 2) (Builder.ofBits [true, false]) 0b10 :=
    reads_loadUint (n := 2) (v := 2) (by decide) (by decide)
  have hchain : Load.Reads (loadInt 8) (Builder.ofBits (Bits.ofInt 8 a.workchain))
      (BitVec.ofInt 128 a.workchain) := by
    obtain ⟨hlo, hhi⟩ := a.workchain_range
    exact reads_loadInt (by decide) (by decide) (by omega) (by omega)
  have hhash : Load.Reads (loadBits 256) (Builder.ofBits (Bits.ofBytes a.hash)) a.hash := by
    have := reads_loadBits (show 256 ≤ 8 * a.hash.length by simp [a.hash_length])
    rw [List.take_of_length_le (by simp [a.hash_length])] at this
    rwa [show Bits.cut 256 a.hash = a.hash by
      have := Bits.cut_all a.hash
      rwa [a.hash_length] at this] at this
  have hword : (BitVec.ofInt 128 a.workchain).toInt = a.workchain := by
    obtain ⟨hlo, hhi⟩ := a.workchain_range
    exact BitVec.toInt_ofInt_eq_self (by decide) (by norm_num; omega) (by norm_num; omega)
  have hparts : Address.ofParts? a.workchain a.hash = some a :=
    dif_pos ⟨a.workchain_range, a.hash_length⟩
  simp only [Address.encode, List.append_assoc, Builder.ofBits_append]
  refine htag.bind (Load.reads_guard (by decide) ((reads_loadBit false).bind ?_))
  refine Load.reads_guard (by decide) (hchain.bind ?_)
  rw [← Builder.append_empty (.ofBits (Bits.ofBytes a.hash))]
  refine hhash.bind ?_
  rw [hword, hparts]
  exact Load.reads_pure a

theorem yields_loadAddress : Load.Yields loadAddress (fun _ => True) := by
  refine (yields_loadUint (by decide)).bind fun tag _ => Load.yields_guard rfl fun _ => ?_
  refine yields_loadBit.bind fun bit _ => Load.yields_guard rfl fun _ => ?_
  refine (yields_loadInt (by decide)).bind fun chain _ => (yields_loadBits 256).bind fun hash _ => ?_
  split
  · exact Load.yields_pure trivial
  · exact Load.yields_throw rfl

end Slice

/-! ## Texts -/

theorem toList_loop (bytes : ByteArray) (i : Nat) (done : List UInt8) :
    ByteArray.toList.loop bytes i done = done.reverse ++ bytes.data.toList.drop i := by
  fun_induction ByteArray.toList.loop bytes i done with
  | case1 i done h ih =>
    have hlen : i < bytes.data.toList.length := h
    have hget : bytes.get! i = bytes.data.toList[i] := getElem!_pos bytes.data i h
    rw [ih, List.drop_eq_getElem_cons hlen, hget, List.reverse_cons, List.append_assoc]
    rfl
  | case2 i done h =>
    have hlen : bytes.data.toList.length ≤ i := Nat.not_lt.1 h
    rw [List.drop_of_length_le hlen, List.append_nil]

namespace Cell

theorem chainBytes_foldr (parts : List (List UInt8)) :
    ((parts.foldr link none).getD empty).chainBytes = parts.flatten := by
  induction parts with
  | nil => rfl
  | cons part parts ih =>
    rw [List.foldr_cons, link, Option.getD_some, List.flatten_cons, ← ih]
    cases parts.foldr link none with
    | none => exact (Bits.wholeBytes_ofBytes part).trans (List.append_nil part).symm
    | some c =>
      rw [Option.toList_some, chainBytes, Bits.wholeBytes_ofBytes]
      rfl

theorem flatten_chunks (bytes : List UInt8) : (chunks bytes).flatten = bytes := by
  fun_induction chunks bytes with
  | case1 => rfl
  | case2 bytes h ih => rw [List.flatten_cons, ih, List.take_append_drop]

theorem chainBytes_ofBytes (bytes : List UInt8) : (ofBytes bytes).chainBytes = bytes := by
  rw [ofBytes, chainBytes_foldr, flatten_chunks]

/-- A chain of cells holds the text that it was made of. -/
theorem readText_ofText (s : String) : (ofText s).readText = .ok s := by
  have hbytes : (⟨(ofText s).chainBytes.toArray⟩ : ByteArray) = s.toByteArray := by
    rw [ofText, chainBytes_ofBytes, ByteArray.toList, toList_loop]
    rfl
  have hs : String.fromUTF8? s.toByteArray = some s := dif_pos s.isValidUTF8
  rw [readText, hbytes, hs]

end Cell

namespace Machine

theorem reads_loadText (s : String) :
    Load.Reads loadText (Builder.ofRef (Cell.ofText s)) s := by
  rw [← Builder.append_empty (.ofRef (Cell.ofText s))]
  refine (Slice.reads_loadRef _).bind ?_
  rw [Cell.readText_ofText]
  exact Load.reads_pure s

theorem yields_loadText : Load.Yields loadText (fun _ => True) := by
  refine Slice.yields_loadRef.bind fun c _ => ?_
  have hbad : ∀ e, c.readText = .error e → e.isMalformed = true := by
    intro e he
    unfold Cell.readText at he
    split at he
    · cases he
    · cases he
      rfl
  split
  · exact Load.yields_pure trivial
  · next e he => exact Load.yields_throw (hbad e he)

/-! ## Maps -/

/-- What a map takes: a bit, and a reference unless it is empty. -/
def dictPiece : Option Cell → Builder
  | none => .ofBits [false]
  | some c => .ofBits [true] ++ .ofRef c

/-- A map as a value. -/
def dictValue : Option Cell → Value
  | none => .null
  | some c => .cell c

theorem appends_storeDict (root : Option Cell) :
    Write.Appends (storeDict root) (some (dictPiece root)) := by
  cases root with
  | none => exact (Builder.puts_storeBit false).appends
  | some c =>
    exact Builder.appends_seq (Builder.puts_storeBit true).appends (Builder.puts_storeRef c).appends

theorem reads_loadDict (root : Option Cell) :
    Load.Reads loadDict (dictPiece root) (dictValue root) := by
  cases root with
  | none =>
    rw [← Builder.append_empty (dictPiece none)]
    exact (Slice.reads_loadBit false).bind (Load.reads_pure _)
  | some c =>
    refine (Slice.reads_loadBit true).bind ?_
    rw [← Builder.append_empty (.ofRef c)]
    exact (Slice.reads_loadRef c).bind (Load.reads_pure _)

theorem yields_loadDict : Load.Yields loadDict (fun v => ∃ root, v = dictValue root) := by
  refine Slice.yields_loadBit.bind fun bit _ => ?_
  cases bit with
  | false => exact Load.yields_pure ⟨none, rfl⟩
  | true => exact Slice.yields_loadRef.bind fun c _ => Load.yields_pure ⟨some c, rfl⟩

end Machine
end CellPack
