import Mathlib
import CellPack.Proofs.Records
/-!
# Interpreters

Serializers and parsers run in one way: a program is looked up and entered, its instructions are
counted and executed one after the other, and its result is made of the last state. An instruction
calls at most one other program, which `Interpreter.call?` tells beforehand. Both machines are such
interpreters (`Machine.call_storing`, `Machine.run_loading`), so what is proved of an interpreter is
said of both.
-/

namespace CellPack

open Step

variable {ι ο σ α β : Type}

/-- The run did not reach a limit. -/
def Uncut (r : Except RuntimeError α) : Prop := FailsWith (·.isLimit = false) r

namespace Run

theorem ext {x y : Run α} (h : ∀ n, x.run n = y.run n) : x = y := funext h

/-! ## Steps that are not counted -/

/-- The step counts no instruction and reaches no limit. -/
def Still (x : Run α) : Prop :=
  ∃ r, Uncut r ∧ ∀ n, x.run n = (r, n)

/-- The value of a step that counts no instruction. -/
def value? (x : Run α) : Option α := (x.run 0).1.toOption

theorem still_pure (a : α) : Still (pure a : Run α) := ⟨.ok a, failsWith_ok a, fun _ => rfl⟩

theorem still_throw {e : RuntimeError} (h : e.isLimit = false) : Still (throw e : Run α) :=
  ⟨.error e, failsWith_error h, fun _ => rfl⟩

theorem still_lift {x : Except RuntimeError α} (h : Uncut x) :
    Still (liftM x : Run α) :=
  ⟨x, h, fun _ => by cases x <;> rfl⟩

theorem Still.bind {x : Run α} {f : α → Run β} (hx : Still x) (hf : ∀ a, Still (f a)) :
    Still (x >>= f) := by
  obtain ⟨e | a, he, hx⟩ := hx
  · exact ⟨.error e, failsWith_error (he e rfl), fun n => run_bind_error (hx n)⟩
  · obtain ⟨r, hr, hf⟩ := hf a
    exact ⟨r, hr, fun n => (run_bind_ok (hx n)).trans (hf n)⟩

theorem still_read (l : Load α) (s : Slice) : Still (read l s) := by
  unfold read
  rcases l.run s with ⟨e | a, s'⟩
  · exact still_throw rfl
  · exact still_pure _

theorem still_write (w : Write Unit) (b : Builder) : Still (write w b) := by
  unfold write
  rcases w.run b with ⟨e | a, b'⟩
  · exact still_throw rfl
  · exact still_pure _

theorem still_slot (p : Program) (i : Instr) (items : List α) (index : Nat) :
    Still (p.slot i items index) := by
  unfold Program.slot
  cases items[index]? with
  | none => exact still_throw rfl
  | some a => exact still_pure a

/-! ## Calls -/

/-- The step makes at most this one call, and the rest of it is not counted. -/
def Calls (x : (String → ι → Run ο) → Run α) : Option (String × ι) → Prop
  | none => ∃ y, Still y ∧ ∀ call, x call = y
  | some (name, arg) =>
    ∃ next : ο → Run α, (∀ o, Still (next o)) ∧ ∀ call, x call = call name arg >>= next

theorem Still.calls {x : Run α} (h : Still x) : Calls (fun _ : String → ι → Run ο => x) none :=
  ⟨x, h, fun _ => rfl⟩

theorem calls_call (name : String) (arg : ι) :
    Calls (fun call : String → ι → Run ο => call name arg) (some (name, arg)) :=
  ⟨pure, still_pure, fun call => (bind_pure (call name arg)).symm⟩

section
variable {x : (String → ι → Run ο) → Run α} {c : Option (String × ι)}

theorem Calls.bind {f : α → Run β} (h : Calls x c) (hf : ∀ a, Still (f a)) :
    Calls (fun call => x call >>= f) c := by
  cases c with
  | none =>
    obtain ⟨y, hy, hx⟩ := h
    exact ⟨y >>= f, hy.bind hf, fun call => congrArg (· >>= f) (hx call)⟩
  | some c =>
    obtain ⟨next, hnext, hx⟩ := h
    exact ⟨fun o => next o >>= f, fun o => (hnext o).bind hf, fun call => by
      simp only [hx, bind_assoc]⟩

/-- What comes behind a step that is not counted makes the call, if that step succeeds. -/
theorem Still.calls_bind {y : Run β} {f : (String → ι → Run ο) → β → Run α}
    {c : β → Option (String × ι)} (hy : Still y) (hf : ∀ b, Calls (fun call => f call b) (c b)) :
    Calls (fun call => y >>= f call) (y.value?.bind c) := by
  obtain ⟨e | b, he, hrun⟩ := hy
  · have hnone : y.value? = none := by rw [value?, hrun]; rfl
    rw [hnone]
    refine ⟨throw e, still_throw (he e rfl), fun call => ?_⟩
    exact funext fun n => run_bind_error (hrun n)
  · have hsome : y.value? = some b := by rw [value?, hrun]; rfl
    have hthen (call : String → ι → Run ο) : y >>= f call = f call b :=
      funext fun n => run_bind_ok (hrun n)
    rw [hsome, Option.bind_some]
    simpa only [hthen] using hf b

end

end Run

/-! ## Interpreters -/

open Run

/--
How programs are looked up and run: `start` is the state before the first instruction, and `finish`
makes the result of the last state. Every instruction makes at most the call that `call?` tells.
-/
structure Interpreter (ι ο σ : Type) where
  lookup : String → Except RuntimeError Program
  start : ι → σ
  execute : (String → ι → Run ο) → Program → ι → σ → Instr → Run σ
  call? : Program → ι → σ → Instr → Option (String × ι)
  finish : Program → ι → σ → Except RuntimeError ο
  uncut_lookup : ∀ name, Uncut (lookup name)
  execute_calls : ∀ p arg st i, Calls (fun call => execute call p arg st i) (call? p arg st i)
  uncut_finish : ∀ p arg st, Uncut (finish p arg st)

namespace Interpreter

variable (I : Interpreter ι ο σ) (limits : Limits)

/-- Counts and executes an instruction. -/
def step (call : String → ι → Run ο) (p : Program) (arg : ι) (st : σ) (i : Instr) : Run σ := do
  Run.step limits
  I.execute call p arg st i

/-- Runs a program to its last state. The first argument bounds how deep programs are nested. -/
def run : Nat → String → ι → Run (Program × σ)
  | depth, name, arg => do
    let p ← I.lookup name
    match depth with
    | 0 => throw (.nestedTooDeep limits.depth)
    | depth + 1 =>
      let call (name : String) (arg : ι) : Run ο := do
        let (p, st) ← run depth name arg
        I.finish p arg st
      let st ← p.instrs.foldlM (I.step limits call p arg) (I.start arg)
      return (p, st)

/-- Runs a program to its result. -/
def call (depth : Nat) (name : String) (arg : ι) : Run ο := do
  let (p, st) ← I.run limits depth name arg
  I.finish p arg st

variable {I limits} {depth n : Nat} {name : String} {arg : ι} {p : Program}

theorem run_unknown {e : RuntimeError} (h : I.lookup name = .error e) :
    (I.run limits depth name arg).run n = (.error e, n) := by
  unfold run
  rw [h]
  rfl

theorem run_zero (h : I.lookup name = .ok p) :
    (I.run limits 0 name arg).run n = (.error (.nestedTooDeep limits.depth), n) := by
  unfold run
  rw [h]
  rfl

theorem run_succ (h : I.lookup name = .ok p) :
    (I.run limits (depth + 1) name arg).run n =
      (p.instrs.foldlM (I.step limits (I.call limits depth) p arg) (I.start arg) >>= fun st =>
        pure (p, st) : Run (Program × σ)).run n := by
  unfold run
  rw [h]
  rfl

theorem call_unknown {e : RuntimeError} (h : I.lookup name = .error e) :
    (I.call limits depth name arg).run n = (.error e, n) :=
  run_bind_error (run_unknown h)

theorem call_zero (h : I.lookup name = .ok p) :
    (I.call limits 0 name arg).run n = (.error (.nestedTooDeep limits.depth), n) :=
  run_bind_error (run_zero h)

theorem call_succ (h : I.lookup name = .ok p) :
    (I.call limits (depth + 1) name arg).run n =
      (p.instrs.foldlM (I.step limits (I.call limits depth) p arg) (I.start arg) >>= fun st =>
        liftM (I.finish p arg st) : Run ο).run n := by
  rw [call, run_bind, run_succ h, run_bind, run_bind]
  rcases (p.instrs.foldlM (I.step limits (I.call limits depth) p arg) (I.start arg)).run n with
    ⟨e | st, n'⟩ <;> rfl

end Interpreter

/-! ## The two machines -/

namespace Machine

/-- The program that the value of a field is written by, with what is written and where. -/
def storeOpCall? : FieldOp → Value → Builder → Option (String × Builder × Value)
  | .record name boxed, .record fields, b =>
    some (ProcName.store name, if boxed then {} else b, .record fields)
  | .optional _ _, .null, _ => none
  | .optional inner boxed, v, b =>
    (Run.write (Builder.storeBit true) b).value?.bind fun b =>
      storeOpCall? inner v (if boxed then {} else b)
  | _, _, _ => none

/-- The program that an instruction of a serializer calls. -/
def storeInstrCall? (p : Program) (v : Value) (builders : List Builder) (i : Instr) :
    Option (String × Builder × Value) :=
  match i with
  | .store cell field op =>
    (fieldValue p v field).value?.bind fun x =>
      (p.slot i builders cell).value?.bind fun b => storeOpCall? op x b
  | _ => none

/-- The program that the value of a field is read by, with the slice it is read from. -/
def loadOpCall? : FieldOp → Slice → Option (String × Slice)
  | .record name false, s => some (ProcName.load name, s)
  | .record name true, s =>
    (Run.read Slice.loadRef s).value?.bind fun r => some (ProcName.load name, r.1.toSlice)
  | .optional inner boxed, s =>
    (Run.read Slice.loadBit s).value?.bind fun r =>
      if !r.1 then none
      else if boxed then
        (Run.read Slice.loadRef r.2).value?.bind fun r => loadOpCall? inner r.1.toSlice
      else loadOpCall? inner r.2
  | _, _ => none

/-- The program that an instruction of a parser calls. -/
def loadInstrCall? (p : Program) (r : Reading) (i : Instr) : Option (String × Slice) :=
  match i with
  | .load cell _ op => (p.slot i r.slices cell).value?.bind (loadOpCall? op)
  | _ => none

theorem still_fieldValue (p : Program) (v : Value) (field : String) :
    Still (fieldValue p v field) := by
  unfold fieldValue
  split
  · split
    · exact still_pure _
    · exact still_throw rfl
  · exact still_throw rfl

/-- Only a record makes a call, in place or in a cell of its own. -/
theorem calls_storeOp (field : String) (op : FieldOp) : ∀ v b,
    Calls (fun call => storeOp (fun name b v => call name (b, v)) field op v b)
      (storeOpCall? op v b) := by
  induction op with
  | record name boxed =>
    intro v b
    cases boxed with
    | false =>
      cases v with
      | record fields => exact calls_call _ _
      | _ => exact (still_throw rfl).calls
    | true =>
      cases v with
      | record fields => exact (calls_call _ _).bind fun child => still_write _ b
      | _ => exact (still_throw rfl).calls
  | optional inner boxed ih =>
    intro v b
    cases v with
    | null => exact (still_write _ b).calls
    | _ =>
      cases boxed with
      | false => exact (still_write _ b).calls_bind fun b => ih _ b
      | true =>
        refine (still_write _ b).calls_bind fun b => ?_
        exact (ih _ {}).bind fun child => still_write _ b
  | ref kind =>
    intro v b
    cases kind <;> cases v <;> first | exact (still_write _ b).calls | exact (still_throw rfl).calls
  | _ =>
    intro v b
    cases v <;> first | exact (still_write _ b).calls | exact (still_throw rfl).calls

theorem calls_storeInstr (p : Program) (v : Value) (builders : List Builder) (i : Instr) :
    Calls (fun call => storeInstr (fun name b v => call name (b, v)) p v builders i)
      (storeInstrCall? p v builders i) := by
  cases i with
  | beginCell cell => exact (still_pure _).calls
  | storeHeader cell header =>
    refine Still.calls ((still_slot p _ builders cell).bind fun b => ?_)
    exact (still_write _ b).bind fun b => still_pure _
  | store cell field op =>
    refine (still_fieldValue p v field).calls_bind fun x => ?_
    refine (still_slot p _ builders cell).calls_bind fun b => ?_
    exact (calls_storeOp field op x b).bind fun b => still_pure _
  | endCell parent child =>
    refine Still.calls ((still_slot p _ builders child).bind fun done => ?_)
    refine (still_slot p _ _ parent).bind fun b => ?_
    exact (still_write _ b).bind fun b => still_pure _
  | _ => exact (still_throw rfl).calls

/-- A present optional value makes the call of what is in it. -/
theorem calls_loadOp (op : FieldOp) : ∀ s,
    Calls (fun call => loadOp call op s) (loadOpCall? op s) := by
  induction op with
  | record name boxed =>
    intro s
    cases boxed with
    | false => exact calls_call _ _
    | true =>
      refine (still_read _ s).calls_bind fun r => ?_
      exact (calls_call _ _).bind fun r' => still_pure _
  | optional inner boxed ih =>
    refine fun s => (still_read _ s).calls_bind fun r => ?_
    obtain ⟨present, s⟩ := r
    cases present with
    | false => exact (still_pure _).calls
    | true =>
      cases boxed with
      | false => exact ih s
      | true =>
        refine (still_read _ s).calls_bind fun r => ?_
        exact (ih _).bind fun r' => still_pure _
  | ref kind => cases kind <;> exact fun s => (still_read _ s).calls
  | _ => exact fun s => (still_read _ s).calls

theorem calls_loadInstr (p : Program) (r : Reading) (i : Instr) :
    Calls (fun call => loadInstr call p r i) (loadInstrCall? p r i) := by
  cases i with
  | checkHeader cell expected =>
    refine Still.calls ((still_slot p _ r.slices cell).bind fun s => ?_)
    refine (still_read _ s).bind fun r' => ?_
    simp only
    split
    · exact still_throw rfl
    · exact still_pure _
  | openCell parent child =>
    simp only [loadInstr]
    split
    · exact (still_throw rfl).calls
    · refine Still.calls ((still_slot p _ r.slices parent).bind fun s => ?_)
      exact (still_read _ s).bind fun r' => still_pure _
  | load cell field op =>
    refine (still_slot p _ r.slices cell).calls_bind fun s => ?_
    exact (calls_loadOp op s).bind fun r' => still_pure _
  | setDefault field value => exact (still_pure _).calls
  | _ => exact (still_throw rfl).calls

theorem uncut_lookup (set : ProgramSet) (parser : Bool) (name : String) :
    Uncut (set.lookup parser name) := by
  unfold ProgramSet.lookup
  split
  · exact failsWith_error rfl
  · split
    · exact failsWith_ok _
    · exact failsWith_error rfl

theorem uncut_toRecord (p : Program) (r : Reading) : Uncut (toRecord p r) := by
  refine FailsWith.map ((failsWith_takeFields p.typeName p.fields r.loaded).mono ?_)
  rintro _ ⟨field, -, rfl⟩
  rfl

/-- The serializers of a set. -/
def storing (set : ProgramSet) : Interpreter (Builder × Value) Builder (List Builder) where
  lookup := set.lookup false
  start arg := [arg.1]
  execute call p arg := storeInstr (fun name b v => call name (b, v)) p arg.2
  call? p arg := storeInstrCall? p arg.2
  finish _ _ builders := .ok (builders.headD {})
  uncut_lookup := uncut_lookup set false
  execute_calls p arg := calls_storeInstr p arg.2
  uncut_finish _ _ _ := failsWith_ok _

/-- The parsers of a set. -/
def loading (set : ProgramSet) : Interpreter Slice (Value × Slice) Reading where
  lookup := set.lookup true
  start s := { slices := [s] }
  execute call p _ := loadInstr call p
  call? p _ := loadInstrCall? p
  finish p s r := (·, r.slices.headD s) <$> toRecord p r
  uncut_lookup := uncut_lookup set true
  execute_calls p _ := calls_loadInstr p
  uncut_finish p _ r := FailsWith.map (uncut_toRecord p r)

variable {set : ProgramSet} {limits : Limits}

/-- Writing a record is running its serializer. -/
theorem call_storing (depth : Nat) : ∀ name b v,
    (storing set).call limits depth name (b, v) = storeProgram set limits depth name b v := by
  induction depth with
  | zero =>
    refine fun name b v => Run.ext fun n => ?_
    cases hlookup : set.lookup false name with
    | error e => rw [(storing set).call_unknown hlookup, run_storeProgram_error hlookup]
    | ok p => rw [(storing set).call_zero hlookup, run_storeProgram_zero hlookup]
  | succ depth ih =>
    refine fun name b v => Run.ext fun n => ?_
    cases hlookup : set.lookup false name with
    | error e => rw [(storing set).call_unknown hlookup, run_storeProgram_error hlookup]
    | ok p =>
      have hcall : (fun name b v => (storing set).call limits depth name (b, v)) =
          storeProgram set limits depth := funext fun name => funext fun b => funext (ih name b)
      rw [(storing set).call_succ hlookup, run_storeProgram hlookup, ← hcall]
      rfl

theorem call_loading_of {depth : Nat} {name : String} {s : Slice}
    (h : loadProgram set limits depth name s =
      (loading set).run limits depth name s >>= fun r => pure (r.1, r.2, r.2.slices.headD s)) :
    (loading set).call limits depth name s = loadRecord set limits depth name s := by
  rw [loadRecord, h, Interpreter.call, bind_assoc]
  refine bind_congr fun r => Run.ext fun n => ?_
  change (liftM ((·, r.2.slices.headD s) <$> toRecord r.1 r.2) : Run (Value × Slice)).run n =
    (finish r.1 s r.2).run n
  unfold finish
  cases toRecord r.1 r.2 <;> rfl

/-- Reading what a parser reads is running it to its last state. -/
theorem run_loading (depth : Nat) : ∀ name s,
    loadProgram set limits depth name s =
      (loading set).run limits depth name s >>= fun r => pure (r.1, r.2, r.2.slices.headD s) := by
  induction depth with
  | zero =>
    intro name s
    rw [loadProgram, Interpreter.run, bind_assoc]
    rfl
  | succ depth ih =>
    intro name s
    have hcall : (loading set).call limits depth = loadRecord set limits depth :=
      funext fun name => funext fun s => call_loading_of (ih name s)
    rw [loadProgram, Interpreter.run, bind_assoc]
    refine bind_congr fun p => ?_
    change loadAll (loadRecord set limits depth) limits p p.instrs { slices := [s] } >>= _ = _
    rw [← hcall, bind_assoc]
    rfl

theorem call_loading (depth : Nat) (name : String) (s : Slice) :
    (loading set).call limits depth name s = loadRecord set limits depth name s :=
  call_loading_of (run_loading depth name s)

end Machine
end CellPack
