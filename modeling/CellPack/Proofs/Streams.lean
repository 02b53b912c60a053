import Mathlib
import CellPack.Cell.Stream
import CellPack.Proofs.Contents
/-!
# Streams of items are read back

Writing an item puts one piece that depends on the item alone, and reading by the kind takes exactly
that piece. So items written one behind the other are read back in order, and nothing else is left
in the cell (`Item.loadAll_storeAll`).
-/

namespace CellPack

namespace ItemKind

/-- The piece that a value of a kind takes. A value that does not fit has none. -/
def piece : (k : ItemKind) → k.Carrier → Option Builder
  | bit, b => some (.ofBits [b])
  | uint n, w =>
    if bitLength (BitVec.toNat w) ≤ n then some (.ofBits (Bits.ofNat n (BitVec.toNat w))) else none
  | int n, w => ((IntFormat.int n).encode? (BitVec.toInt w)).map .ofBits
  | bigUint n, v => if bitLength v ≤ n then some (.ofBits (Bits.ofNat n v)) else none
  | bigInt n, v => ((IntFormat.int n).encode? v).map .ofBits
  | varUint w, v => ((IntFormat.varUint w).encode? (Int.ofNat v)).map .ofBits
  | varInt w, v => ((IntFormat.varInt w).encode? v).map .ofBits
  | bits n, bytes =>
    if n ≤ 8 * bytes.length then some (.ofBits ((Bits.ofBytes bytes).take n)) else none
  | address, a => some (.ofBits a.encode)
  | ref, c => some (.ofRef c)

/-- What is read back: of bytes the first bits, with zeros up to a whole byte. -/
def kept : (k : ItemKind) → k.Carrier → k.Carrier
  | bits n, bytes => Bits.cut n bytes
  | bit, b => b
  | uint _, w | int _, w => w
  | bigUint _, v | varUint _, v => v
  | bigInt _, v | varInt _, v => v
  | address, a => a
  | ref, c => c

theorem puts_store : ∀ (k : ItemKind) (v : k.Carrier), Write.Puts (k.store v) (k.piece v)
  | bit, b => Builder.puts_storeBit b
  | uint n, w => Builder.puts_storeUint w n
  | int n, w => Builder.puts_storeInt w n
  | bigUint n, v => Builder.puts_storeBigUint v n
  | bigInt n, v => Builder.puts_storeBigInt v n
  | varUint w, v => Builder.puts_storeVarUint v w
  | varInt w, v => Builder.puts_storeVarInt v w
  | bits n, bytes => Builder.puts_storeBits bytes n
  | address, a => Builder.puts_storeAddress a
  | ref, c => Builder.puts_storeRef c

/-- The kind alone is enough to read the piece of a value. -/
theorem reads_load {e : Builder} :
    ∀ (k : ItemKind) (v : k.Carrier), k.piece v = some e → Load.Reads k.load e (k.kept v)
  | bit, b, h => by
    obtain rfl := Option.some.inj h
    exact Slice.reads_loadBit b
  | uint n, w, h => by
    obtain ⟨hfits, he⟩ := Option.ite_none_right_eq_some.1 h
    obtain rfl := Option.some.inj he
    exact Slice.reads_loadUint_word (bitLength_le_iff.1 hfits)
  | int n, w, h => by
    obtain ⟨bits, hbits, rfl⟩ := Option.map_eq_some_iff.1 h
    obtain ⟨⟨hn, hfits⟩, he⟩ := Option.ite_none_right_eq_some.1 hbits
    obtain rfl := Option.some.inj he
    exact Slice.reads_loadInt_word hn hfits
  | bigUint n, v, h => by
    obtain ⟨hfits, he⟩ := Option.ite_none_right_eq_some.1 h
    obtain rfl := Option.some.inj he
    exact Slice.reads_loadBigUint (bitLength_le_iff.1 hfits)
  | bigInt n, v, h => by
    obtain ⟨bits, hbits, rfl⟩ := Option.map_eq_some_iff.1 h
    exact Slice.reads_loadBigInt hbits
  | varUint w, v, h => by
    obtain ⟨bits, hbits, rfl⟩ := Option.map_eq_some_iff.1 h
    exact Slice.reads_loadVarUint hbits
  | varInt w, v, h => by
    obtain ⟨bits, hbits, rfl⟩ := Option.map_eq_some_iff.1 h
    exact Slice.reads_loadVarInt hbits
  | bits n, bytes, h => by
    obtain ⟨hlength, he⟩ := Option.ite_none_right_eq_some.1 h
    obtain rfl := Option.some.inj he
    exact Slice.reads_loadBits hlength
  | address, a, h => by
    obtain rfl := Option.some.inj h
    exact Slice.reads_loadAddress a
  | ref, c, h => by
    obtain rfl := Option.some.inj h
    exact Slice.reads_loadRef c

end ItemKind

namespace Item

/-- The piece that an item takes. -/
def piece (i : Item) : Option Builder := i.kind.piece i.value

/-- The item as it is read back. -/
def kept (i : Item) : Item := ⟨i.kind, i.kind.kept i.value⟩

theorem puts_store (i : Item) : Write.Puts i.store i.piece := i.kind.puts_store i.value

/-- An item that is written has a piece, and room for it; otherwise nothing has happened. -/
theorem ends_store (i : Item) {b : Builder} (hb : b.HasRoom {}) :
    Step.Ends i.store b (fun _ b' => ∃ e, i.piece = some e ∧ b.HasRoom e ∧ b' = b ++ e)
      (fun _ b' => b' = b) := by
  have hputs := i.puts_store
  cases hpiece : i.piece with
  | none =>
    rw [hpiece] at hputs
    obtain ⟨n, hrun⟩ := hputs.appends b
    exact .of_error hrun rfl
  | some e =>
    rw [hpiece] at hputs
    by_cases hroom : b.HasRoom e
    · exact .of_ok (hputs.appends b hroom) ⟨e, rfl, hroom, rfl⟩
    · exact .of_error (hputs.full rfl hb hroom) rfl

/-- Items are put behind what a builder holds, and reading takes them from the front. -/
theorem reads_loadAll {items : List Item} :
    ∀ {b b' : Builder}, b.HasRoom {} → (storeAll items).run b = (.ok (), b') →
      ∃ e, b' = b ++ e ∧ Load.Reads (loadAll (items.map kind)) e (items.map kept) := by
  induction items with
  | nil =>
    intro b b' _ h
    cases h
    exact ⟨{}, (b.append_empty).symm, Load.reads_pure []⟩
  | cons i items ih =>
    intro b b' hb h
    obtain ⟨⟨⟩, c, hfirst, hrest⟩ := Step.exists_of_run_bind h
    obtain ⟨e, hpiece, hroom, rfl⟩ := (i.ends_store hb).ok_of_run hfirst
    obtain ⟨e', rfl, hreads⟩ := ih (b := b ++ e) (by simpa [Builder.HasRoom] using hroom) hrest
    refine ⟨e ++ e', Builder.append_assoc b e e', ?_⟩
    refine (i.kind.reads_load i.value hpiece).bind ?_
    rw [← e'.append_empty]
    exact hreads.bind (Load.reads_pure _)

/--
Whatever items have been written to an empty builder, reading the finished cell by their kinds
succeeds, gives the items in order as they are kept, and leaves no bit and no reference.
-/
theorem loadAll_storeAll {items : List Item} {b : Builder}
    (h : (storeAll items).run {} = (.ok (), b)) :
    (loadAll (items.map kind)).run b.toCell.toSlice = (.ok (items.map kept), ⟨[], []⟩) := by
  obtain ⟨e, rfl, hreads⟩ := reads_loadAll ⟨Nat.zero_le _, Nat.zero_le _⟩ h
  rw [Builder.empty_append, Builder.toSlice_toCell]
  exact hreads ⟨[], []⟩

/-- An item of each kind. No bit string behind the first one starts at a whole byte. -/
def sampleItems : List Item :=
  [⟨.bit, true⟩, ⟨.uint 200, (90 : Word)⟩, ⟨.int 130, BitVec.ofInt 128 (-3)⟩,
    ⟨.bigUint 12, (4095 : Nat)⟩, ⟨.bigInt 9, (-256 : Int)⟩, ⟨.varUint .w16, (300 : Nat)⟩,
    ⟨.varInt .w32, (-129 : Int)⟩, ⟨.bits 12, ([0xab, 0xcd] : List UInt8)⟩,
    ⟨.address, ⟨-1, List.replicate 32 0x5a, by decide, by decide⟩⟩, ⟨.ref, Cell.mk [true] []⟩]

theorem loadAll_storeAll_sample : ∃ b, (storeAll sampleItems).run {} = (.ok (), b)
    ∧ (loadAll (sampleItems.map kind)).run b.toCell.toSlice =
      (.ok (sampleItems.map kept), ⟨[], []⟩)
    ∧ (sampleItems.map kept)[7]? = some ⟨.bits 12, ([0xab, 0xc0] : List UInt8)⟩ := by
  have hrun : ((storeAll sampleItems).run {}).1.isOk = true := by decide +kernel
  rcases h : (storeAll sampleItems).run {} with ⟨e | ⟨⟩, b⟩
  · rw [h] at hrun
    cases hrun
  · exact ⟨b, rfl, loadAll_storeAll h, rfl⟩

end Item
end CellPack
