import Mathlib
import CellPack.Proofs.Bytes
import CellPack.Proofs.Streams
/-!
# Packed cells hold what is written

A bit that is pushed to a packed builder stands behind the others, and only zeros stand behind it.
From this step on, each operation does to the packed builder what it does to the builder of bit
strings. So whatever has been tried in whatever order, the bytes are the bits and nothing else, and
an operation that fails has changed nothing (`Item.tryAllPacked_tight`).
-/

namespace CellPack

/-! ## Packing -/

theorem Cell.packAll_eq (cs : List Cell) : Cell.packAll cs = cs.map Cell.pack := by
  induction cs with
  | nil => rfl
  | cons c cs ih => rw [packAll, ih, List.map_cons]

/-- A builder with one more bit, packed, is the packed builder with this bit. -/
theorem Builder.pack_push (b : Builder) (bit : Bool) :
    (b ++ ofBits [bit]).pack = b.pack.withBit bit := by
  let n := b.bits.length
  let opened := if n % 8 = 0 then Bits.toBytes b.bits ++ [0] else Bits.toBytes b.bits
  have hlength : opened.length = n / 8 + 1 := by
    simp only [opened]
    split <;> simp only [List.length_append, List.length_singleton, Bits.length_toBytes] <;> omega
  have hopened : Bits.ofBytes opened = b.bits ++ false :: Bits.padding (n + 1) := by
    rw [← Bits.padding_succ]
    simp only [opened]
    split
    · next h =>
      have hnone : Bits.padding n = [] := by
        rw [Bits.padding, show 8 * ((n + 7) / 8) - n = 0 by omega, List.replicate_zero]
      rw [Bits.ofBytes_append, Bits.ofBytes_toBytes, hnone, List.append_nil]
      rfl
    · exact Bits.ofBytes_toBytes b.bits
  have hdata : Bits.toBytes (b.bits ++ [bit]) =
      if bit then opened.modify (opened.length - 1) (· ||| bitMask n) else opened := by
    refine Bits.ofBytes_inj ?_
    rw [Bits.ofBytes_toBytes, List.length_append, List.length_singleton, List.append_assoc]
    cases bit with
    | false => exact hopened.symm
    | true =>
      have hlast : 8 * (opened.length - 1) + n % 8 = n := by omega
      rw [if_pos rfl, Bits.ofBytes_modify (by omega), hlast, hopened,
        List.set_append_right _ _ le_rfl, Nat.sub_self]
      rfl
  refine PackedBuilder.ext hdata ?_ ?_
  · exact List.length_append
  · exact congrArg Cell.packAll b.refs.append_nil

/-! ## Operations -/

/-- The packed step does to a packed builder what the other one does to the builder. -/
def PackedWrite.Simulates (pw : PackedWrite Unit) (w : Write Unit) : Prop :=
  ∀ b : Builder, pw.run b.pack = ((w.run b).1, (w.run b).2.pack)

namespace PackedBuilder

variable {pw pw' : PackedWrite Unit} {w w' : Write Unit}

theorem simulates_seq (h : pw.Simulates w) (h' : pw'.Simulates w') :
    PackedWrite.Simulates (do pw; pw') (do w; w') := by
  intro b
  rw [Step.run_bind, Step.run_bind, h b]
  rcases w.run b with ⟨e | ⟨⟩, b'⟩
  · rfl
  · exact h' b'

theorem simulates_guard {c c' : Prop} [Decidable c] [Decidable c'] {e : CellError}
    {k : Unit → PackedWrite Unit} {k' : Unit → Write Unit} (hc : c ↔ c')
    (h : (k ()).Simulates (k' ())) :
    PackedWrite.Simulates (if c then throw e >>= k else k ())
      (if c' then throw e >>= k' else k' ()) := by
  by_cases hcase : c
  · rw [if_pos hcase, if_pos (hc.1 hcase)]
    exact fun _ => rfl
  · rwa [if_neg hcase, if_neg fun h => hcase (hc.2 h)]

theorem simulates_ensureBits (n : Nat) :
    PackedWrite.Simulates (ensureBits n) (Builder.ensureBits n) := by
  intro b
  have hrun : (ensureBits n).run b.pack =
      (if n > maxCellBits - b.bits.length then
          throw (.bitOverflow n (maxCellBits - b.bits.length))
        else pure () : PackedWrite Unit).run b.pack := rfl
  rw [hrun, Builder.run_ensureBits]
  split <;> rfl

theorem simulates_pushAll {α : Type} (xs : List α) (f : α → Bool) :
    PackedWrite.Simulates (xs.forM fun x => pushBit (f x)) (Builder.push (xs.map f)) := by
  induction xs with
  | nil =>
    intro b
    rw [Builder.run_push, List.map_nil, show b ++ Builder.ofBits [] = b from Builder.append_empty b]
    rfl
  | cons x xs ih =>
    intro b
    have hrest := ih (b ++ Builder.ofBits [f x])
    rw [Builder.run_push, Builder.pack_push, Builder.append_assoc, ← Builder.ofBits_append,
      List.singleton_append] at hrest
    rw [Builder.run_push, List.map_cons]
    exact hrest

theorem simulates_storeBit (bit : Bool) :
    PackedWrite.Simulates (storeBit bit) (Builder.storeBit bit) :=
  simulates_seq (simulates_ensureBits 1) (simulates_pushAll [bit] id)

/-- A value that is checked, and then the room for bits that are computed one by one. -/
theorem simulates_checked {c c' : Prop} [Decidable c] [Decidable c'] {e : CellError} {n : Nat}
    {f : Nat → Bool} {bits : List Bool} (hc : c ↔ c') (h : (List.range n).reverse.map f = bits) :
    PackedWrite.Simulates
      (do if c then throw e
          ensureBits n
          pushDown n f)
      (do if c' then throw e
          Builder.ensureBits n
          Builder.push bits) := by
  subst h
  refine simulates_guard hc ?_
  exact simulates_seq (simulates_ensureBits n) (simulates_pushAll _ f)

theorem and_one_eq_one (v : Word) : v &&& 1 = 1 ↔ v.getLsbD 0 = true := by
  have h : v &&& 1 = (BitVec.ofBool (v.getLsbD 0)).setWidth 128 :=
    BitVec.and_one_eq_setWidth_ofBool_getLsbD
  rw [h]
  cases v.getLsbD 0 <;> decide

theorem fitsSigned_eq (v : Word) (n : Nat) : fitsSigned v n = Builder.wordFits v n := by
  by_cases hn : n = 0
  · rw [fitsSigned, Builder.wordFits, if_pos hn, if_pos hn]
  · rw [fitsSigned, if_neg hn]
    by_cases hwide : 128 ≤ n
    · rw [if_pos hwide, Builder.wordFits, if_neg hn, if_pos hwide]
    · have hhalf : ((1 <<< (n - 1) : Nat) : Int) = 2 ^ (n - 1) := by
        rw [Nat.one_shiftLeft, Nat.cast_pow, Nat.cast_ofNat]
      rw [if_neg hwide, Builder.wordFits_eq v hn, Bool.eq_iff_iff, decide_eq_true_eq, hhalf,
        IntFormat.fits, IntFormat.fitsSigned_iff (Nat.pos_of_ne_zero hn), and_comm]

theorem simulates_storeUint (v : Word) (n : Nat) :
    PackedWrite.Simulates (storeUint v n) (Builder.storeUint v n) := by
  refine simulates_checked ?_ ?_
  · rw [ne_eq, ne_eq, ← BitVec.toNat_inj, BitVec.toNat_ushiftRight]
    rfl
  · refine List.map_congr_left fun i _ => ?_
    rw [Bool.eq_iff_iff, decide_eq_true_eq, and_one_eq_one, BitVec.getLsbD_ushiftRight,
      Nat.add_zero]
    exact ⟨fun h => h.2, fun h => ⟨BitVec.lt_of_getLsbD h, h⟩⟩

theorem simulates_storeInt (v : Word) (n : Nat) :
    PackedWrite.Simulates (storeInt v n) (Builder.storeInt v n) := by
  refine simulates_checked ?_ ?_
  · rw [fitsSigned_eq]
  · refine List.map_congr_left fun i _ => ?_
    by_cases hi : i < 128
    · rw [if_neg (Nat.not_le.2 hi), if_pos hi, Bool.eq_iff_iff, decide_eq_true_eq, and_one_eq_one,
        BitVec.getLsbD_sshiftRight]
      simp [hi]
    · rw [if_pos (Nat.not_lt.1 hi), if_neg hi, BitVec.msb_eq_toInt]

theorem simulates_storeBigUint (v n : Nat) :
    PackedWrite.Simulates (storeBigUint v n) (Builder.storeBigUint v n) :=
  simulates_checked Iff.rfl (Bits.map_reverse_range fun i _ => alignedBit_naturalBytes v i)

theorem simulates_storeBigInt (v : Int) (n : Nat) :
    PackedWrite.Simulates (storeBigInt v n) (Builder.storeBigInt v n) := by
  refine simulates_checked Iff.rfl (Bits.map_reverse_range fun i hi => ?_)
  rw [alignedBit_signedBytes, testBit_ofInt v hi]

theorem simulates_storeVarUint (v : Nat) (w : VarWidth) :
    PackedWrite.Simulates (storeVarUint v w) (Builder.storeVarUint v w) := by
  unfold storeVarUint Builder.storeVarUint
  dsimp only
  refine simulates_guard Iff.rfl ?_
  refine simulates_seq (simulates_ensureBits _) ?_
  exact simulates_seq (simulates_storeUint _ _) (simulates_storeBigUint _ _)

theorem simulates_storeVarInt (v : Int) (w : VarWidth) :
    PackedWrite.Simulates (storeVarInt v w) (Builder.storeVarInt v w) := by
  unfold storeVarInt Builder.storeVarInt
  cases Builder.signedBytes? v w with
  | none => exact fun _ => rfl
  | some len =>
    refine simulates_seq (simulates_ensureBits _) (simulates_seq (simulates_storeUint _ _) ?_)
    split
    · exact simulates_storeBigInt _ _
    · exact fun _ => rfl

theorem simulates_storeBits (bytes : List UInt8) (n : Nat) :
    PackedWrite.Simulates (storeBits bytes n) (Builder.storeBits bytes n) := by
  unfold storeBits Builder.storeBits
  by_cases h : n > 8 * bytes.length
  · rw [if_pos h, if_pos h]
    exact fun _ => rfl
  · rw [if_neg h, if_neg h, ← map_bitAt (Nat.not_lt.1 h)]
    exact simulates_seq (simulates_ensureBits n) (simulates_pushAll _ _)

theorem simulates_storeRef (c : Cell) :
    PackedWrite.Simulates (storeRef c.pack) (Builder.storeRef c) := by
  intro b
  have hlength : b.pack.refs.length = b.refs.length := by
    rw [Builder.pack, Cell.packAll_eq, List.length_map]
  have hrun : (storeRef c.pack).run b.pack =
      (if b.pack.refs.length ≥ maxCellRefs then throw .refOverflow
        else modify fun p => { p with refs := p.refs ++ [c.pack] } : PackedWrite Unit).run
        b.pack := rfl
  have hrun' : (Builder.storeRef c).run b =
      (if b.refs.length ≥ maxCellRefs then throw .refOverflow
        else modify fun b => { b with refs := b.refs ++ [c] } : Write Unit).run b := rfl
  rw [hrun, hrun', hlength]
  split
  · rfl
  · refine Prod.ext rfl (PackedBuilder.ext rfl rfl ?_)
    change Cell.packAll b.refs ++ [c.pack] = Cell.packAll (b.refs ++ [c])
    rw [Cell.packAll_eq, Cell.packAll_eq, List.map_append]
    rfl

theorem simulates_storeAddress (a : Address) :
    PackedWrite.Simulates (storeAddress a) (Builder.storeAddress a) :=
  simulates_seq (simulates_ensureBits _) <| simulates_seq (simulates_storeUint _ _) <|
    simulates_seq (simulates_storeBit _) <|
      simulates_seq (simulates_storeInt _ _) (simulates_storeBits _ _)

end PackedBuilder

theorem ItemKind.simulates_storePacked :
    ∀ (k : ItemKind) (v : k.Carrier), (k.storePacked v).Simulates (k.store v)
  | bit, b => PackedBuilder.simulates_storeBit b
  | uint n, w => PackedBuilder.simulates_storeUint w n
  | int n, w => PackedBuilder.simulates_storeInt w n
  | bigUint n, v => PackedBuilder.simulates_storeBigUint v n
  | bigInt n, v => PackedBuilder.simulates_storeBigInt v n
  | varUint w, v => PackedBuilder.simulates_storeVarUint v w
  | varInt w, v => PackedBuilder.simulates_storeVarInt v w
  | bits n, bytes => PackedBuilder.simulates_storeBits bytes n
  | address, a => PackedBuilder.simulates_storeAddress a
  | ref, c => PackedBuilder.simulates_storeRef c

/-! ## Packed builders -/

namespace PackedBuilder

/-- The capacity of a cell is kept, and the bytes hold the bits with zeros behind the last one. -/
structure Tight (p : PackedBuilder) : Prop where
  bits_le : p.bitCount ≤ 1023
  refs_le : p.refs.length ≤ 4
  length_data : p.data.length = (p.bitCount + 7) / 8
  unused : ∀ i, p.bitCount ≤ i → i < 8 * p.data.length → bitAt p.data i = false

variable {p q : PackedBuilder}

theorem length_bits (p : PackedBuilder) : p.bits.length = p.bitCount := by
  rw [bits, List.length_map, List.length_range]

theorem Tight.ofBytes_data (h : p.Tight) :
    Bits.ofBytes p.data = p.bits ++ Bits.padding p.bitCount := by
  have hlength := h.length_data
  obtain ⟨k, hk⟩ : ∃ k, 8 * p.data.length = p.bitCount + k := Nat.exists_eq_add_of_le (by omega)
  have hpadding : (List.range k).map (fun i => bitAt p.data (p.bitCount + i)) =
      List.replicate k false := by
    refine List.eq_replicate_iff.2 ⟨by rw [List.length_map, List.length_range], fun b hb => ?_⟩
    obtain ⟨i, hi, rfl⟩ := List.mem_map.1 hb
    have hi : i < k := List.mem_range.1 hi
    exact h.unused _ (Nat.le_add_right _ _) (by omega)
  have hall := map_bitAt (le_refl (8 * p.data.length))
  rw [← Bits.length_ofBytes, List.take_length, Bits.length_ofBytes, hk, List.range_add,
    List.map_append, List.map_map] at hall
  rw [← hall, Bits.padding, show 8 * ((p.bitCount + 7) / 8) - p.bitCount = k by omega, ← hpadding]
  rfl

/-- Finished cells are the same exactly if their bits and references are. -/
theorem Tight.toCell_eq_iff (hp : p.Tight) (hq : q.Tight) :
    p.toCell = q.toCell ↔ p.bits = q.bits ∧ p.refs = q.refs := by
  constructor
  · intro h
    rw [toCell, toCell, PackedCell.mk.injEq] at h
    rw [bits, bits, h.1, h.2.1]
    exact ⟨rfl, h.2.2⟩
  · rintro ⟨hbits, hrefs⟩
    have hcount : p.bitCount = q.bitCount := by rw [← length_bits, hbits, length_bits]
    have hdata : p.data = q.data := by
      apply Bits.ofBytes_inj
      rw [hp.ofBytes_data, hq.ofBytes_data, hbits, hcount]
    rw [toCell, toCell, hdata, hcount, hrefs]

end PackedBuilder

namespace Builder

variable {b : Builder}

theorem bits_pack (b : Builder) : b.pack.bits = b.bits := by
  have hlength := Bits.length_toBytes b.bits
  change (List.range b.bits.length).map (bitAt (Bits.toBytes b.bits)) = _
  rw [map_bitAt (by omega), Bits.ofBytes_toBytes, List.take_left]

theorem refs_pack (b : Builder) : b.pack.refs = b.refs.map Cell.pack := Cell.packAll_eq b.refs

theorem tight_pack (h : b.HasRoom {}) : b.pack.Tight where
  bits_le := h.1
  refs_le := by
    rw [refs_pack, List.length_map]
    exact h.2
  length_data := Bits.length_toBytes b.bits
  unused := by
    intro i hi _
    have hi : b.bits.length ≤ i := hi
    change bitAt (Bits.toBytes b.bits) i = false
    rw [bitAt_eq, Bits.ofBytes_toBytes, List.getElem?_append_right hi, Bits.padding,
      List.getElem?_replicate]
    split <;> rfl

end Builder

/-! ## Any operations -/

/-- A value takes bits alone or one reference. -/
theorem ItemKind.bits_or_ref {e : Builder} : ∀ (k : ItemKind) (v : k.Carrier),
    k.piece v = some e → (∃ bits, e = .ofBits bits) ∨ ∃ c, e = .ofRef c
  | bit, b, h => .inl ⟨[b], (Option.some.inj h).symm⟩
  | uint _, _, h => .inl ⟨_, (Option.some.inj (Option.ite_none_right_eq_some.1 h).2).symm⟩
  | bigUint _, _, h => .inl ⟨_, (Option.some.inj (Option.ite_none_right_eq_some.1 h).2).symm⟩
  | bits _, _, h => .inl ⟨_, (Option.some.inj (Option.ite_none_right_eq_some.1 h).2).symm⟩
  | int _, _, h => .inl ((Option.map_eq_some_iff.1 h).imp fun _ hb => hb.2.symm)
  | bigInt _, _, h => .inl ((Option.map_eq_some_iff.1 h).imp fun _ hb => hb.2.symm)
  | varUint _, _, h => .inl ((Option.map_eq_some_iff.1 h).imp fun _ hb => hb.2.symm)
  | varInt _, _, h => .inl ((Option.map_eq_some_iff.1 h).imp fun _ hb => hb.2.symm)
  | address, a, h => .inl ⟨a.encode, (Option.some.inj h).symm⟩
  | ref, c, h => .inr ⟨c, (Option.some.inj h).symm⟩

namespace Item

theorem tryAllPacked_eq (items : List Item) : tryAllPacked items = (tryAll items).pack := by
  have hfold : ∀ b : Builder, items.foldl (fun p i => (i.storePacked.run p).2) b.pack =
      (items.foldl (fun b i => (i.store.run b).2) b).pack := by
    induction items with
    | nil => exact fun _ => rfl
    | cons i items ih =>
      intro b
      have hstep : i.storePacked.run b.pack = _ := i.kind.simulates_storePacked i.value b
      rw [List.foldl_cons, List.foldl_cons, hstep]
      exact ih _
  exact hfold {}

theorem hasRoom_tryAll (items : List Item) : (tryAll items).HasRoom {} := by
  have hfold : ∀ b : Builder, b.HasRoom {} →
      (items.foldl (fun b i => (i.store.run b).2) b).HasRoom {} := by
    induction items with
    | nil => exact fun _ h => h
    | cons i items ih =>
      intro b hb
      refine ih _ ?_
      change (i.store.run b).2.HasRoom {}
      rcases hrun : i.store.run b with ⟨e | ⟨⟩, b'⟩
      · rwa [(i.ends_store hb).bad_of_run hrun]
      · obtain ⟨e, -, hroom, rfl⟩ := (i.ends_store hb).ok_of_run hrun
        simpa [Builder.HasRoom] using hroom
  exact hfold {} ⟨Nat.zero_le _, Nat.zero_le _⟩

/--
Whatever has been tried on an empty packed builder, it is tight. So its finished cell is known by
its bits and references, and one more operation leaves it as it was or puts bits or one reference
behind what it holds. It is the packed form of the builder after the same operations, on which each
further operation ends in the same way.
-/
theorem tryAllPacked_tight (items : List Item) :
    let p := tryAllPacked items
    p.Tight
    ∧ (∀ others, p.toCell = (tryAllPacked others).toCell ↔
        p.bits = (tryAllPacked others).bits ∧ p.refs = (tryAllPacked others).refs)
    ∧ (∀ i : Item, match i.storePacked.run p with
      | (.error _, p') => p' = p
      | (.ok (), p') => (∃ bits, p'.bits = p.bits ++ bits ∧ p'.refs = p.refs)
          ∨ ∃ c, p'.bits = p.bits ∧ p'.refs = p.refs ++ [c])
    ∧ p = (tryAll items).pack
    ∧ ∀ i : Item, i.storePacked.run p =
        ((i.store.run (tryAll items)).1, (i.store.run (tryAll items)).2.pack) := by
  intro p
  have hpack (items : List Item) : tryAllPacked items = (tryAll items).pack := tryAllPacked_eq items
  have htight (items : List Item) : (tryAllPacked items).Tight :=
    hpack items ▸ Builder.tight_pack (hasRoom_tryAll items)
  have hstep (i : Item) : i.storePacked.run p =
      ((i.store.run (tryAll items)).1, (i.store.run (tryAll items)).2.pack) := by
    rw [show p = _ from hpack items]
    exact i.kind.simulates_storePacked i.value _
  refine ⟨htight items, fun others => (htight items).toCell_eq_iff (htight others), fun i => ?_,
    hpack items, hstep⟩
  have hends := i.ends_store (hasRoom_tryAll items)
  rw [hstep i, show p = _ from hpack items]
  rcases hrun : i.store.run (tryAll items) with ⟨e | ⟨⟩, b⟩
  · exact congrArg Builder.pack (hends.bad_of_run hrun)
  · obtain ⟨e, hpiece, -, rfl⟩ := hends.ok_of_run hrun
    dsimp only
    simp only [Builder.bits_pack, Builder.refs_pack, Builder.bits_append, Builder.refs_append,
      List.map_append]
    obtain ⟨bits, rfl⟩ | ⟨c, rfl⟩ := i.kind.bits_or_ref i.value hpiece
    · exact .inl ⟨bits, rfl, List.append_nil _⟩
    · exact .inr ⟨c.pack, List.append_nil _, rfl⟩

end Item
end CellPack
