import Mathlib
import CellPack.Proofs.Bytes
import CellPack.Proofs.Capacities
/-!
# Chains of text

A chain is made from the last chunk backwards. From the front it is one cell for a short text, and
otherwise a full cell in front of the chain of the rest (`Cell.ofBytes_long`), as the standard
helper of the emitted code makes it, although chunks may end inside a character. Every statement
about chains goes by induction along this (`Cell.chunk_induction`), up to `Cell.ofText_snake`.
-/

namespace CellPack

/-! ## Writing through builders -/

namespace Builder

theorem appends_storeBytes (bytes : List UInt8) :
    Write.Appends (storeBytes bytes) (some (ofBits (Bits.ofBytes bytes))) := by
  induction bytes with
  | nil => exact appends_nothing
  | cons byte bytes ih =>
    rw [Bits.ofBytes_cons, ofBits_append]
    exact appends_seq (appends_storeUint (by decide) byte.toNat_lt) ih

/-- What a chunk takes with the chain behind it. -/
theorem appends_storeChunk (chunk : List UInt8) (next : Option Cell) :
    Write.Appends (storeChunk chunk next) (some ⟨Bits.ofBytes chunk, next.toList⟩) := by
  have hbytes := appends_storeBytes chunk
  cases next with
  | none =>
    have hpiece : ofBits (Bits.ofBytes chunk) ++ ofBits [] = ⟨Bits.ofBytes chunk, []⟩ :=
      append_empty _
    exact hpiece ▸ appends_seq hbytes appends_nothing
  | some c =>
    have hpiece : ofBits (Bits.ofBytes chunk) ++ ofRef c = ⟨Bits.ofBytes chunk, [c]⟩ := by
      ext1 <;> simp
    exact hpiece ▸ appends_seq hbytes (puts_storeRef c).appends

end Builder

namespace Cell

/-- A chunk and a reference have room in a cell. -/
theorem writeLink_eq {chunk : List UInt8} (h : chunk.length ≤ textChunkBytes)
    (next : Option Cell) : writeLink next chunk = .ok (link chunk next) := by
  have hroom : Builder.HasRoom {} ⟨Bits.ofBytes chunk, next.toList⟩ := by
    constructor
    · simp only [Bits.length_ofBytes, List.length_nil, textChunkBytes, maxCellBits] at h ⊢
      omega
    · cases next <;> simp [maxCellRefs]
  rw [writeLink, Builder.appends_storeChunk chunk next {} hroom]
  rfl

theorem foldlM_writeLink {parts : List (List UInt8)}
    (h : ∀ chunk ∈ parts, chunk.length ≤ textChunkBytes) :
    parts.reverse.foldlM writeLink none = .ok (parts.foldr link none) := by
  induction parts with
  | nil => rfl
  | cons chunk parts ih =>
    obtain ⟨hchunk, hparts⟩ := List.forall_mem_cons.1 h
    rw [List.reverse_cons, List.foldlM_append, ih hparts]
    exact bind_eq_ok.2 ⟨_, rfl, bind_eq_ok.2 ⟨_, writeLink_eq hchunk _, rfl⟩⟩

/-- No cell of a chain runs out of room. -/
theorem writeText_eq (s : String) : writeText s = .ok (ofText s) := by
  rw [writeText, foldlM_writeLink (length_of_mem_chunks _)]
  rfl

/-! ## Chains from the front -/

theorem foldr_link {bytes : List UInt8} (h : bytes ≠ []) :
    (chunks bytes).foldr link none = some (ofBytes bytes) := by
  rw [ofBytes, chunks, dif_neg h]
  rfl

theorem ofBytes_eq {bytes : List UInt8} (h : bytes ≠ []) :
    ofBytes bytes = mk (Bits.ofBytes (bytes.take textChunkBytes))
      ((chunks (bytes.drop textChunkBytes)).foldr link none).toList := by
  rw [ofBytes, chunks, dif_neg h]
  rfl

theorem ofBytes_short {bytes : List UInt8} (h : bytes.length ≤ textChunkBytes) :
    ofBytes bytes = mk (Bits.ofBytes bytes) [] := by
  by_cases hbytes : bytes = []
  · subst hbytes
    rw [ofBytes, chunks, dif_pos rfl]
    rfl
  · rw [ofBytes_eq hbytes, List.take_of_length_le h, List.drop_eq_nil_of_le h, chunks, dif_pos rfl]
    rfl

theorem ofBytes_long {bytes : List UInt8} (h : textChunkBytes < bytes.length) :
    ofBytes bytes =
      mk (Bits.ofBytes (bytes.take textChunkBytes)) [ofBytes (bytes.drop textChunkBytes)] := by
  have hbytes : bytes ≠ [] := by
    rintro rfl
    exact absurd h (Nat.not_lt_zero _)
  have hrest : bytes.drop textChunkBytes ≠ [] := by
    rw [ne_eq, List.drop_eq_nil_iff]
    omega
  rw [ofBytes_eq hbytes, foldr_link hrest]
  rfl

/--
What holds of the bytes of one cell, and of more bytes if it does of those behind the first chunk,
holds of all byte strings.
-/
theorem chunk_induction {P : List UInt8 → Prop}
    (short : ∀ bytes, bytes.length ≤ textChunkBytes → P bytes)
    (long : ∀ bytes, textChunkBytes < bytes.length → P (bytes.drop textChunkBytes) → P bytes)
    (bytes : List UInt8) : P bytes := by
  induction hn : bytes.length using Nat.strong_induction_on generalizing bytes with
  | _ n ih =>
    subst hn
    by_cases h : bytes.length ≤ textChunkBytes
    · exact short bytes h
    · refine long bytes (Nat.not_le.1 h) (ih _ ?_ _ rfl)
      rw [List.length_drop]
      simp only [textChunkBytes] at h ⊢
      omega

/--
What the standard helper `Stdlib.textToCell` makes of the bits of a slice: one cell if it has room
for them, and otherwise its first chunk with a reference to what it makes of the rest.
-/
def splitText (bits : List Bool) : Cell :=
  if bits.length ≤ 8 * textChunkBytes then mk bits []
  else mk (bits.take (8 * textChunkBytes)) [splitText (bits.drop (8 * textChunkBytes))]
termination_by bits.length
decreasing_by
  simp only [textChunkBytes, List.length_drop] at *
  omega

theorem splitText_ofBytes (bytes : List UInt8) :
    splitText (Bits.ofBytes bytes) = ofBytes bytes := by
  induction bytes using chunk_induction with
  | short bytes h =>
    rw [splitText, if_pos (by rw [Bits.length_ofBytes]; omega), ofBytes_short h]
  | long bytes h ih =>
    have htake := Bits.ofBytes_append (bytes.take textChunkBytes) (bytes.drop textChunkBytes)
    have hlen : (Bits.ofBytes (bytes.take textChunkBytes)).length = 8 * textChunkBytes := by
      rw [Bits.length_ofBytes, List.length_take_of_le h.le]
    rw [List.take_append_drop] at htake
    rw [splitText, if_neg (by rw [Bits.length_ofBytes]; omega), ofBytes_long h, htake,
      List.take_left' hlen, List.drop_left' hlen, ih]

/-! ## Sizes of chains -/

theorem treeSize_ofBytes (bytes : List UInt8) :
    (ofBytes bytes).treeSize = max 1 ((bytes.length + 126) / 127) := by
  induction bytes using chunk_induction with
  | short bytes h =>
    rw [ofBytes_short h, treeSize, treeSizes]
    simp only [textChunkBytes] at h
    omega
  | long bytes h ih =>
    rw [ofBytes_long h, treeSize, treeSizes, treeSizes, ih, List.length_drop]
    simp only [textChunkBytes] at h ⊢
    omega

/-- The cell and all cells below it have at most so many bits and references. -/
inductive AtMost (bits refs : Nat) : Cell → Prop where
  | mk {data : List Bool} {below : List Cell} (bits_le : data.length ≤ bits)
    (refs_le : below.length ≤ refs) (below_le : ∀ c ∈ below, AtMost bits refs c) :
    AtMost bits refs (.mk data below)

theorem atMost_ofBytes (bytes : List UInt8) : (ofBytes bytes).AtMost (8 * textChunkBytes) 1 := by
  induction bytes using chunk_induction with
  | short bytes h =>
    rw [ofBytes_short h]
    refine .mk ?_ (by simp) (by simp)
    rw [Bits.length_ofBytes]
    omega
  | long bytes h ih =>
    rw [ofBytes_long h]
    refine .mk ?_ (by simp) (by simpa using ih)
    rw [Bits.length_ofBytes, List.length_take_of_le h.le]

theorem length_toUTF8 (s : String) : s.toUTF8.toList.length = s.utf8ByteSize := by
  rw [ByteArray.toList, toList_loop]
  rfl

/--
Every text is written to a chain of cells, which holds it. It is the chain that the emitted code
makes of the same bytes: one cell for each 127 of them, at least one, each with at most 1016 bits
and one reference.
-/
theorem ofText_snake (s : String) :
    writeText s = .ok (ofText s)
    ∧ (ofText s).readText = .ok s
    ∧ ofText s = splitText (Bits.ofBytes s.toUTF8.toList)
    ∧ (ofText s).treeSize = max 1 ((s.utf8ByteSize + 126) / 127)
    ∧ (ofText s).AtMost 1016 1 := by
  refine ⟨writeText_eq s, readText_ofText s, (splitText_ofBytes _).symm, ?_, atMost_ofBytes _⟩
  rw [ofText, treeSize_ofBytes, length_toUTF8]

end Cell
end CellPack
