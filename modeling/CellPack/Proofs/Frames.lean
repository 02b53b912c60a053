import Mathlib
import CellPack.Proofs.Linked
/-!
# Writing behind other contents

Behind whatever else a builder holds, a step writes the same piece, unless the builder gets full.
So does a program whose instructions end no cell that they have not started, and the program of
every record of a linked set (`Linked.frames`).
-/

namespace CellPack

open Step

/-! ## Steps on a builder -/

/-- The cell has no room for what is written. -/
def CellError.isFull : CellError → Bool
  | bitOverflow _ _ | refOverflow => true
  | _ => false

namespace Write

variable {α β : Type}

/-- The step does the same behind any contents, unless the builder gets full. -/
def Frames (w : Write α) : Prop :=
  ∀ f b : Builder, Agree CellError.isFull
    (fun a s a' s' => a = a' ∧ s = f ++ s') (w.run (f ++ b)) (w.run b)

theorem frames_pure (a : α) : Frames (pure a) := fun _ _ => .ok ⟨rfl, rfl⟩

theorem frames_throw (e : CellError) : Frames (throw e : Write α) := fun f b => .error e (f ++ b) b

theorem Frames.bind {w : Write α} {k : α → Write β} (hw : Frames w) (hk : ∀ a, Frames (k a)) :
    Frames (w >>= k) := by
  refine fun f b => (hw f b).bind ?_
  rintro a _ _ s ⟨rfl, rfl⟩
  exact hk a f s

/-- A refusal beforehand does not depend on the builder. -/
theorem frames_guard {c : Prop} [Decidable c] {x : CellError} {k : Unit → Write α}
    (h : Frames (k ())) : Frames (if c then throw x >>= k else k ()) := by
  by_cases hc : c
  · rw [if_pos hc]
    exact fun f b => .error x (f ++ b) b
  · rw [if_neg hc]
    exact h

end Write

namespace Builder

open Write

theorem frames_ensureBits (n : Nat) : Frames (ensureBits n) := by
  intro f b
  have hrun (b : Builder) : (ensureBits n).run b =
      (if n > maxCellBits - b.bits.length then throw (.bitOverflow n (maxCellBits - b.bits.length))
        else pure () : Write Unit).run b := rfl
  rw [hrun, hrun]
  by_cases hfull : n > maxCellBits - (f ++ b).bits.length
  · rw [if_pos hfull]
    exact .stop rfl
  · have hroom : ¬n > maxCellBits - b.bits.length := by
      rw [bits_append, List.length_append] at hfull
      omega
    rw [if_neg hfull, if_neg hroom]
    exact .ok ⟨rfl, rfl⟩

theorem frames_push (bits : List Bool) : Frames (push bits) := by
  intro f b
  rw [run_push, run_push]
  exact .ok ⟨rfl, append_assoc f b (ofBits bits)⟩

/-- Bits that are checked to have room. -/
theorem frames_ensured (n : Nat) (bits : List Bool) : Frames (do ensureBits n; push bits) :=
  (frames_ensureBits n).bind fun _ => frames_push bits

theorem frames_storeBit (bit : Bool) : Frames (storeBit bit) := frames_ensured 1 [bit]

theorem frames_storeUint (v : Word) (n : Nat) : Frames (storeUint v n) := by
  unfold storeUint
  apply frames_guard
  exact frames_ensured n _

theorem frames_storeInt (v : Word) (n : Nat) : Frames (storeInt v n) := by
  unfold storeInt
  apply frames_guard
  exact frames_ensured n _

theorem frames_storeBigInt (v : Int) (n : Nat) : Frames (storeBigInt v n) := by
  unfold storeBigInt
  apply frames_guard
  exact frames_ensured n _

theorem frames_storeBigUint (v n : Nat) : Frames (storeBigUint v n) := by
  unfold storeBigUint
  apply frames_guard
  exact frames_ensured n _

theorem frames_storeBits (bytes : List UInt8) (n : Nat) : Frames (storeBits bytes n) := by
  unfold storeBits
  apply frames_guard
  exact frames_ensured n _

theorem frames_storeVarUint (v : Nat) (w : VarWidth) : Frames (storeVarUint v w) := by
  unfold storeVarUint
  apply frames_guard
  exact (frames_ensureBits _).bind fun _ =>
    (frames_storeUint _ _).bind fun _ => frames_storeBigUint _ _

theorem frames_storeVarInt (v : Int) (w : VarWidth) : Frames (storeVarInt v w) := by
  unfold storeVarInt
  split
  · exact frames_throw _
  · next len _ =>
    refine (frames_ensureBits _).bind fun _ => (frames_storeUint _ _).bind fun _ => ?_
    split
    · exact frames_storeBigInt v (8 * len)
    · exact frames_pure ()

theorem frames_storeAddress (a : Address) : Frames (storeAddress a) :=
  (frames_ensureBits _).bind fun _ => (frames_storeUint _ _).bind fun _ =>
    (frames_storeBit _).bind fun _ => (frames_storeInt _ _).bind fun _ => frames_storeBits _ _

theorem frames_storeRef (c : Cell) : Frames (storeRef c) := by
  intro f b
  have hrun (b : Builder) : (storeRef c).run b =
      (if b.refs.length ≥ maxCellRefs then throw .refOverflow
        else modify fun b => { b with refs := b.refs ++ [c] } : Write Unit).run b := rfl
  rw [hrun, hrun]
  by_cases hfull : (f ++ b).refs.length ≥ maxCellRefs
  · rw [if_pos hfull]
    exact .stop rfl
  · have hroom : ¬b.refs.length ≥ maxCellRefs := by
      rw [refs_append, List.length_append] at hfull
      omega
    rw [if_neg hfull, if_neg hroom]
    exact .ok ⟨rfl, by ext1 <;> simp⟩

end Builder

namespace Machine

open Write

theorem frames_natOrRange (v : Int) (n : Nat) : Frames (natOrRange v n) := by
  unfold natOrRange
  split
  · exact frames_throw _
  · exact frames_pure _

theorem frames_storeInt (format : IntFormat) (v : Int) : Frames (storeInt format v) := by
  cases format with
  | int n => exact Builder.frames_storeBigInt v n
  | uint n => exact (frames_natOrRange v n).bind fun v => Builder.frames_storeBigUint v n
  | varInt w => exact Builder.frames_storeVarInt v w
  | varUint w => exact (frames_natOrRange v _).bind fun v => Builder.frames_storeVarUint v w

theorem frames_storeDict (root : Option Cell) : Frames (storeDict root) := by
  cases root with
  | none => exact Builder.frames_storeBit false
  | some c => exact (Builder.frames_storeBit true).bind fun _ => Builder.frames_storeRef c

end Machine

/-! ## Fields -/

/-- The error is a cell without room. -/
def RuntimeError.isFull : RuntimeError → Bool
  | cell e => e.isFull
  | _ => false

namespace Run

/-- Values and counters of two runs on builders, the first of them with more contents in front. -/
def Behind (f b : Builder) (n : Nat) (b' : Builder) (n' : Nat) : Prop := b = f ++ b' ∧ n = n'

/-- Behind any contents, the run takes as many steps to the same end, unless a cell gets full. -/
def Frames (x : Builder → Run Builder) : Prop :=
  ∀ f b n, Agree RuntimeError.isFull (Behind f) ((x (f ++ b)).run n)
    ((x b).run n)

theorem frames_throw (e : RuntimeError) : Frames fun _ => throw e := fun _ _ n => .error e n n

theorem frames_write {w : Write Unit} (h : w.Frames) : Frames (write w) := by
  intro f b n
  have hw := h f b
  unfold write
  generalize w.run (f ++ b) = r at hw ⊢
  generalize w.run b = r' at hw ⊢
  cases hw with
  | stop hfull => exact .stop hfull
  | error e => exact .error _ n n
  | ok h => exact .ok ⟨h.2, rfl⟩

theorem Frames.bind {x y : Builder → Run Builder} (hx : Frames x) (hy : Frames y) :
    Frames fun b => x b >>= y := by
  refine fun f b n => (hx f b n).bind ?_
  rintro _ n b' _ ⟨rfl, rfl⟩
  exact hy f b' n

/-- What does not touch the builder goes first. -/
theorem frames_bind_same {α : Type} {x : Run α} {y : α → Builder → Run Builder}
    (hy : ∀ a, Frames (y a)) : Frames fun b => x >>= fun a => y a b :=
  fun f b _ => agree_bind_same fun a n => hy a f b n

end Run

namespace Machine

variable {call : String → Builder → Value → Run Builder} {field : String}

/-- A reference to a cell that is written by itself. -/
theorem frames_boxed (child : Run Builder) :
    Run.Frames fun b => child >>= fun child => Run.write (Builder.storeRef child.toCell) b :=
  Run.frames_bind_same fun child => Run.frames_write (Builder.frames_storeRef child.toCell)

/-- The fields of a type are written so if the records in them are. -/
theorem frames_storeOp {type : FieldType} {op : FieldOp} (h : type.Lowers op)
    (hcall : ∀ name ∈ type.mentioned, ∀ v, Run.Frames fun b => call (ProcName.store name) b v) :
    ∀ v, Run.Frames (storeOp call field op v) := by
  induction h with
  | int format =>
    intro v
    cases v with
    | int v => exact Run.frames_write (frames_storeInt format v)
    | _ => exact Run.frames_throw _
  | bool =>
    intro v
    cases v with
    | bool x => exact Run.frames_write (Builder.frames_storeBit x)
    | _ => exact Run.frames_throw _
  | address =>
    intro v
    cases v with
    | address a => exact Run.frames_write (Builder.frames_storeAddress a)
    | _ => exact Run.frames_throw _
  | bits n =>
    intro v
    cases v with
    | bits bytes => exact Run.frames_write (Builder.frames_storeBits bytes n)
    | _ => exact Run.frames_throw _
  | cell | slice | builder =>
    intro v
    cases v with
    | cell c => exact Run.frames_write (Builder.frames_storeRef c)
    | _ => exact Run.frames_throw _
  | string =>
    intro v
    cases v with
    | string s => exact Run.frames_write (Builder.frames_storeRef (Cell.ofText s))
    | _ => exact Run.frames_throw _
  | map key value =>
    intro v
    cases v with
    | null => exact Run.frames_write (frames_storeDict none)
    | cell c => exact Run.frames_write (frames_storeDict (some c))
    | _ => exact Run.frames_throw _
  | record name boxed =>
    intro v
    have hname := hcall name (by simp [FieldType.mentioned])
    cases v with
    | record entries =>
      cases boxed with
      | false => exact hname (.record entries)
      | true => exact frames_boxed _
    | _ => cases boxed <;> exact Run.frames_throw _
  | optionalMap _ ih => exact ih hcall
  | @optional type op boxed h _ ih =>
    intro v
    by_cases hv : v = .null
    · subst hv
      cases boxed <;> exact Run.frames_write (Builder.frames_storeBit false)
    · rw [funext (storeOp_present hv boxed)]
      refine (Run.frames_write (Builder.frames_storeBit true)).bind ?_
      cases boxed with
      | false => exact ih hcall v
      | true => exact frames_boxed _

/-! ## Programs -/

/-- The first builder has more contents in front, the others are the same. -/
def Ahead (f : Builder) (bs bs' : List Builder) : Prop :=
  ∃ b rest, bs = (f ++ b) :: rest ∧ bs' = b :: rest

/-- What the builder of an index has more in front. -/
def frontOf (f : Builder) (index : Nat) : Builder := if index = 0 then f else {}

section
variable {f : Builder} {bs bs' : List Builder}

theorem Ahead.get? (h : Ahead f bs bs') (index : Nat) :
    bs[index]? = bs'[index]?.map (frontOf f index ++ ·) := by
  obtain ⟨b, rest, rfl, rfl⟩ := h
  cases index with
  | zero => rfl
  | succ index =>
    have hnone : frontOf f (index + 1) = {} := rfl
    simp [hnone]

theorem Ahead.set (h : Ahead f bs bs') (index : Nat) (b : Builder) :
    Ahead f (bs.set index (frontOf f index ++ b)) (bs'.set index b) := by
  obtain ⟨b', rest, rfl, rfl⟩ := h
  cases index with
  | zero => exact ⟨b, rest, rfl, rfl⟩
  | succ index => exact ⟨b', rest.set index b, rfl, rfl⟩

theorem Ahead.slot (h : Ahead f bs bs') (p : Program) (i : Instr) (index n : Nat) :
    Agree RuntimeError.isFull (Run.Behind (frontOf f index))
      ((p.slot i bs index).run n) ((p.slot i bs' index).run n) := by
  unfold Program.slot
  rw [h.get? index]
  cases bs'[index]? with
  | none => exact .error _ n n
  | some b => exact .ok ⟨rfl, rfl⟩

/-- A builder is replaced by what a step on it gives. -/
theorem Ahead.replace (h : Ahead f bs bs') (p : Program) (i : Instr) (index n : Nat)
    {x : Builder → Run Builder} (hx : Run.Frames x) :
    Agree RuntimeError.isFull (fun bs n bs' n' => Ahead f bs bs' ∧ n = n')
      ((p.slot i bs index >>= fun b => x b >>= fun b => pure (bs.set index b) : Run _).run n)
      ((p.slot i bs' index >>= fun b => x b >>= fun b => pure (bs'.set index b) : Run _).run n) := by
  refine (h.slot p i index n).bind ?_
  rintro _ n b _ ⟨rfl, rfl⟩
  refine (hx _ b n).bind ?_
  rintro _ n b _ ⟨rfl, rfl⟩
  exact .ok ⟨h.set index b, rfl⟩

end

/-- The instruction writes a field behind any contents, and ends no cell of the caller. -/
def Framed (call : String → Builder → Value → Run Builder) : Instr → Prop
  | .store _ field op => ∀ v, Run.Frames (storeOp call field op v)
  | .endCell _ child => child ≠ 0
  | _ => True

variable {p : Program} {v : Value} {f : Builder} {bs bs' : List Builder}

theorem agree_storeInstr {i : Instr} (hi : Framed call i) (h : Ahead f bs bs') (n : Nat) :
    Agree RuntimeError.isFull (fun bs n bs' n' => Ahead f bs bs' ∧ n = n')
      ((storeInstr call p v bs i).run n) ((storeInstr call p v bs' i).run n) := by
  cases i with
  | beginCell cell =>
    obtain ⟨b, rest, rfl, rfl⟩ := h
    exact .ok ⟨⟨b, rest ++ List.replicate (cell + 1 - (rest.length + 1)) ({} : Builder), rfl, rfl⟩, rfl⟩
  | storeHeader cell header =>
    exact h.replace p _ cell n (Run.frames_write (Builder.frames_storeUint _ headerBits))
  | store cell field op =>
    exact agree_bind_same fun x n => h.replace p _ cell n (hi x)
  | endCell parent child =>
    -- the child is a cell that was started, so it is the same in both runs
    obtain ⟨child, rfl⟩ := Nat.exists_eq_succ_of_ne_zero hi
    refine (h.slot p _ (child + 1) n).bind ?_
    rintro done n _ _ ⟨rfl, rfl⟩
    exact (h.set (child + 1) {}).replace p _ parent n (Run.frames_write (Builder.frames_storeRef _))
  | _ => exact .error _ n n

theorem agree_storeAll {limits : Limits} (is : List Instr) (his : ∀ i ∈ is, Framed call i) :
    ∀ {bs bs' : List Builder}, Ahead f bs bs' → ∀ n,
      Agree RuntimeError.isFull (fun bs n bs' n' => Ahead f bs bs' ∧ n = n')
        ((storeAll call limits p v is bs).run n) ((storeAll call limits p v is bs').run n) := by
  induction is with
  | nil => exact fun h n => .ok ⟨h, rfl⟩
  | cons i is ih =>
    intro bs bs' h n
    obtain ⟨hi, his⟩ := List.forall_mem_cons.1 his
    have hone : Agree RuntimeError.isFull
        (fun bs n bs' n' => Ahead f bs bs' ∧ n = n')
        ((Run.step limits >>= fun _ => storeInstr call p v bs i).run n)
        ((Run.step limits >>= fun _ => storeInstr call p v bs' i).run n) :=
      agree_bind_same fun _ n => agree_storeInstr hi h n
    refine hone.bind ?_
    rintro bs n bs' _ ⟨h, rfl⟩
    exact ih his h n

/-! ## Linked programs -/

/-- The instructions of a chain write the fields in it, and end only cells that they have started. -/
theorem framed_storeCells (cells : List LayoutCell)
    (h : ∀ pl ∈ cells.flatMap (·.placements), ∀ v, Run.Frames (storeOp call pl.field pl.op v)) :
    ∀ index, ∀ i ∈ Layout.storeCells index cells, Framed call i := by
  induction cells with
  | nil => exact fun _ i hi => absurd hi List.not_mem_nil
  | cons c rest ih =>
    intro index i hi
    have hstores : ∀ i ∈ c.placements.map fun pl => Instr.store index pl.field pl.op,
        Framed call i := by
      rintro _ hi
      obtain ⟨pl, hpl, rfl⟩ := List.mem_map.1 hi
      exact h pl (List.mem_append_left _ hpl)
    unfold Layout.storeCells at hi
    split at hi
    · exact hstores i hi
    · simp only [List.mem_append, List.mem_cons, List.not_mem_nil, or_false] at hi
      rcases hi with (hi | rfl | hi) | rfl
      · exact hstores i hi
      · trivial
      · exact ih (fun pl hpl => h pl (List.mem_append_right _ hpl)) (index + 1) i hi
      · exact Nat.succ_ne_zero index

variable {set : ProgramSet} {limits : Limits} {shape : String → Option Shape}
  {first : String → CellSize} {records : String → Prop} {name : String}

/-- Every record of a linked set is written behind any contents as it is without them. -/
theorem Linked.frames (linked : Linked set shape first records) (depth : Nat) :
    ∀ name, records name → ∀ v,
      Run.Frames fun b => storeProgram set limits depth (ProcName.store name) b v := by
  induction depth with
  | zero =>
    intro name hname v f b n
    obtain ⟨declared, l, -, code⟩ := linked.code name hname
    rw [run_storeProgram_zero code.serializer, run_storeProgram_zero code.serializer]
    exact .error _ n n
  | succ depth ih =>
    intro name hname v f b n
    obtain ⟨declared, l, hshape, code⟩ := linked.code name hname
    have hinstrs : ∀ i ∈ l.serializer.instrs, Framed (storeProgram set limits depth) i := by
      intro i hi
      rcases List.mem_append.1 hi with hi | hi
      · obtain ⟨header, -, rfl⟩ := Option.map_eq_some_iff.1 (Option.mem_toList.1 hi)
        trivial
      · refine framed_storeCells l.cells (fun pl hpl => ?_) 0 i hi
        obtain ⟨type, htype, hlow, -⟩ := code.placed pl hpl
        refine frames_storeOp hlow fun other hother => ih other ?_
        exact linked.mentioned name declared hname hshape _ (mem_of_lookup htype) other hother
    rw [run_storeProgram code.serializer, run_storeProgram code.serializer]
    refine (agree_storeAll l.serializer.instrs hinstrs ⟨b, [], rfl, rfl⟩ n).bind ?_
    rintro _ n _ _ ⟨⟨b, rest, rfl, rfl⟩, rfl⟩
    exact .ok ⟨rfl, rfl⟩

end Machine
end CellPack
