import Mathlib
import CellPack.Proofs.Limits
/-!
# Runs within their limits

`Interpreter.log` lists what happens in the course of a run: which programs are entered and which
instructions are executed, and how deep. It follows the run, so the instructions in it are those
that are counted (`Accounts`). The main result is `Machine.runs_within`: programs may call
themselves or each other, and still no run executes more instructions, or nests programs deeper,
than its limits say.
-/

namespace CellPack

open Step Run

variable {ι ο σ α β : Type}

/-! ## Events -/

/-- What happens in a run, with the number of programs that are open at that time. -/
inductive Event where
  | enter (depth : Nat) (program : String)
  | execute (depth : Nat) (instr : Instr)
  deriving DecidableEq

namespace Event

/-- How many programs are open. -/
def depth : Event → Nat
  | enter depth _ | execute depth _ => depth

/-- Whether an instruction is executed. -/
def executes : Event → Bool
  | enter _ _ => false
  | execute _ _ => true

end Event

/-- The number of instructions executed. -/
def executed (log : List Event) : Nat := log.countP Event.executes

/-- The number of programs entered. -/
def entered (log : List Event) : Nat := log.countP (!·.executes)

@[simp] theorem executed_append (log log' : List Event) :
    executed (log ++ log') = executed log + executed log' := List.countP_append

@[simp] theorem entered_append (log log' : List Event) :
    entered (log ++ log') = entered log + entered log' := List.countP_append

@[simp] theorem executed_execute (depth : Nat) (i : Instr) (log : List Event) :
    executed (.execute depth i :: log) = executed log + 1 := List.countP_cons_of_pos rfl

@[simp] theorem executed_enter (depth : Nat) (name : String) (log : List Event) :
    executed (.enter depth name :: log) = executed log := List.countP_cons_of_neg nofun

@[simp] theorem entered_execute (depth : Nat) (i : Instr) (log : List Event) :
    entered (.execute depth i :: log) = entered log := List.countP_cons_of_neg nofun

@[simp] theorem entered_enter (depth : Nat) (name : String) (log : List Event) :
    entered (.enter depth name :: log) = entered log + 1 := List.countP_cons_of_pos rfl

theorem length_log (log : List Event) : log.length = executed log + entered log := by
  induction log with
  | nil => rfl
  | cons e log ih => cases e <;> simp <;> omega

namespace Interpreter

variable (I : Interpreter ι ο σ) (limits : Limits)

/-- The events of the program that an instruction calls. -/
def calledLog (called : String → ι → Nat → List Event) (p : Program) (arg : ι) (st : σ) (i : Instr)
    (n : Nat) : List Event :=
  (I.call? p arg st i).elim [] fun c => called c.1 c.2 n

/-- The events of instructions, while `depth` programs are open. -/
def logAll (call : String → ι → Run ο) (called : String → ι → Nat → List Event) (depth : Nat)
    (p : Program) (arg : ι) : List Instr → σ → Nat → List Event
  | [], _, _ => []
  | _ :: _, _, 0 => []
  | i :: is, st, n + 1 =>
    .execute depth i :: I.calledLog called p arg st i n
      ++ match (I.execute call p arg st i).run n with
        | (.ok st, n) => logAll call called depth p arg is st n
        | (.error _, _) => []

/-- The events of a program that is run with so many steps left, below `opened` others. -/
def log : Nat → Nat → String → ι → Nat → List Event
  | 0, _, _, _, _ => []
  | depth + 1, opened, name, arg, n =>
    match I.lookup name with
    | .error _ => []
    | .ok p =>
      .enter (opened + 1) name :: I.logAll (I.call limits depth) (log depth (opened + 1))
        (opened + 1) p arg p.instrs (I.start arg) n

end Interpreter

/-! ## Accounts -/

/--
The events account for a run from `n` steps, which may open `depth` programs below `opened` others:
its counted steps are the executed instructions, and it stops at a limit only if it has reached it.
-/
structure Accounts (limits : Limits) (opened depth extra : Nat) (log : List Event) (n : Nat)
    (r : Except RuntimeError α × Nat) : Prop where
  counted : executed log + r.2 = n
  depth_le : ∀ e ∈ log, e.depth ≤ opened + depth
  entered_le : entered log ≤ executed log + extra
  outOfSteps : ∀ k, r.1 = .error (.outOfSteps k) → k = limits.steps ∧ r.2 = 0
  tooDeep : ∀ k, r.1 = .error (.nestedTooDeep k) →
    k = limits.depth ∧ (depth = 0 ∨ ∃ e ∈ log, e.depth = opened + depth)

namespace Accounts

variable {limits : Limits} {opened depth extra extra' n m : Nat} {log log' : List Event}

theorem still {x : Run α} (h : Still x) (n : Nat) :
    Accounts limits opened depth 0 [] n (x.run n) := by
  obtain ⟨r, hr, hx⟩ := h
  rw [hx]
  refine ⟨Nat.zero_add n, nofun, Nat.zero_le _, fun k hk => ?_, fun k hk => ?_⟩
  · exact absurd (hr _ hk) nofun
  · exact absurd (hr _ hk) nofun

theorem mono {r : Except RuntimeError α × Nat} (h : Accounts limits opened depth extra log n r)
    (hextra : extra ≤ extra') : Accounts limits opened depth extra' log n r :=
  ⟨h.counted, h.depth_le, h.entered_le.trans (Nat.add_le_add_left hextra _), h.outOfSteps, h.tooDeep⟩

/-- The same events account for a failed run of another kind. -/
theorem error {e : RuntimeError}
    (h : Accounts limits opened depth extra log n ((.error e : Except RuntimeError α), m)) :
    Accounts limits opened depth extra log n ((.error e : Except RuntimeError β), m) := by
  refine ⟨h.counted, h.depth_le, h.entered_le, fun k hk => ?_, fun k hk => ?_⟩
  · exact h.outOfSteps k (congrArg Except.error (Except.error.inj hk))
  · exact h.tooDeep k (congrArg Except.error (Except.error.inj hk))

/-- Two runs one behind the other. -/
theorem append {a : α} {r : Except RuntimeError β × Nat}
    (h : Accounts limits opened depth extra log n ((.ok a : Except RuntimeError α), m))
    (h' : Accounts limits opened depth extra' log' m r) :
    Accounts limits opened depth (extra + extra') (log ++ log') n r := by
  have hcounted := h.counted
  have hcounted' := h'.counted
  have hentered := h.entered_le
  have hentered' := h'.entered_le
  refine ⟨?_, ?_, ?_, h'.outOfSteps, fun k hk => ?_⟩
  · simp only [executed_append] at hcounted ⊢
    omega
  · intro e he
    rcases List.mem_append.1 he with he | he
    · exact h.depth_le e he
    · exact h'.depth_le e he
  · simp only [executed_append, entered_append]
    omega
  · obtain ⟨hlimit, hreached⟩ := h'.tooDeep k hk
    exact ⟨hlimit, hreached.imp_right fun ⟨e, he, hdepth⟩ => ⟨e, List.mem_append_right log he, hdepth⟩⟩

/-- There are no steps left. -/
theorem out : Accounts limits opened depth 0 []
    0 ((.error (.outOfSteps limits.steps) : Except RuntimeError α), 0) := by
  refine ⟨rfl, nofun, Nat.zero_le _, fun k hk => ?_, nofun⟩
  cases hk
  exact ⟨rfl, rfl⟩

/-- There is no depth left. -/
theorem deep (n : Nat) : Accounts limits opened 0 0 []
    n ((.error (.nestedTooDeep limits.depth) : Except RuntimeError α), n) := by
  refine ⟨Nat.zero_add n, nofun, Nat.zero_le _, nofun, fun k hk => ?_⟩
  cases hk
  exact ⟨rfl, .inl rfl⟩

/-- An instruction is counted before it is executed, and pays for the program that it calls. -/
theorem execute {r : Except RuntimeError α × Nat}
    (h : Accounts limits opened depth 1 log n r) (i : Instr) :
    Accounts limits opened depth 0 (.execute opened i :: log) (n + 1) r := by
  have hcounted := h.counted
  have hentered := h.entered_le
  refine ⟨?_, ?_, ?_, h.outOfSteps, fun k hk => ?_⟩
  · simp only [executed_execute]
    omega
  · intro e he
    rcases List.mem_cons.1 he with rfl | he
    · exact Nat.le_add_right opened depth
    · exact h.depth_le e he
  · simp only [entered_execute, executed_execute]
    omega
  · obtain ⟨hlimit, hreached⟩ := h.tooDeep k hk
    exact ⟨hlimit, hreached.imp_right fun ⟨e, he, hdepth⟩ => ⟨e, List.mem_cons_of_mem _ he, hdepth⟩⟩

/-- A program is entered one level deeper. -/
theorem enter {r : Except RuntimeError α × Nat}
    (h : Accounts limits (opened + 1) depth 0 log n r) (name : String) :
    Accounts limits opened (depth + 1) 1 (.enter (opened + 1) name :: log) n r := by
  have hcounted := h.counted
  have hentered := h.entered_le
  refine ⟨?_, ?_, ?_, h.outOfSteps, fun k hk => ?_⟩
  · simpa only [executed_enter] using hcounted
  · intro e he
    rcases List.mem_cons.1 he with rfl | he
    · change opened + 1 ≤ opened + (depth + 1)
      omega
    · have := h.depth_le e he
      omega
  · simp only [executed_enter, entered_enter]
    omega
  · obtain ⟨hlimit, rfl | ⟨e, he, hdepth⟩⟩ := h.tooDeep k hk
    · exact ⟨hlimit, .inr ⟨_, List.mem_cons_self, rfl⟩⟩
    · exact ⟨hlimit, .inr ⟨e, List.mem_cons_of_mem _ he, by omega⟩⟩

theorem bind {x : Run α} {f : α → Run β} (rest : α → Nat → List Event)
    (hx : Accounts limits opened depth extra log n (x.run n))
    (hf : ∀ a m, Accounts limits opened depth 0 (rest a m) m ((f a).run m)) :
    Accounts limits opened depth extra
      (log ++ match x.run n with
        | (.ok a, m) => rest a m
        | (.error _, _) => []) n ((x >>= f).run n) := by
  rcases hrun : x.run n with ⟨e | a, m⟩
  · rw [hrun] at hx
    rw [run_bind_error hrun, List.append_nil]
    exact hx.error
  · rw [hrun] at hx
    rw [run_bind_ok hrun]
    exact hx.append (hf a m)

theorem bind_still {x : Run α} {f : α → Run β}
    (hx : Accounts limits opened depth extra log n (x.run n)) (hf : ∀ a, Still (f a)) :
    Accounts limits opened depth extra log n ((x >>= f).run n) := by
  have h := hx.bind (fun _ _ => []) fun a m => still (hf a) m
  rcases hrun : x.run n with ⟨e | a, m⟩ <;> simpa [hrun] using h

end Accounts

namespace Interpreter

variable {I : Interpreter ι ο σ} {limits : Limits} {opened depth : Nat}
  {call : String → ι → Run ο} {called : String → ι → Nat → List Event}

section
variable (hcall : ∀ name arg n,
  Accounts limits opened depth 1 (called name arg n) n ((call name arg).run n))
include hcall

/-- Executing an instruction is accounted for by the program that it calls. -/
theorem accounts_execute (p : Program) (arg : ι) (st : σ) (i : Instr) (n : Nat) :
    Accounts limits opened depth 1 (I.calledLog called p arg st i n) n
      ((I.execute call p arg st i).run n) := by
  have h := I.execute_calls p arg st i
  unfold calledLog
  cases hc : I.call? p arg st i with
  | none =>
    rw [hc] at h
    obtain ⟨y, hy, hx⟩ := h
    simp only [hx]
    exact (Accounts.still hy n).mono (Nat.zero_le 1)
  | some c =>
    rw [hc] at h
    obtain ⟨next, hnext, hx⟩ := h
    simp only [hx]
    exact (hcall c.1 c.2 n).bind_still hnext

/-- All instructions are accounted for, or there are no steps left for the next one. -/
theorem accounts_all (p : Program) (arg : ι) (is : List Instr) : ∀ st n,
    Accounts limits opened depth 0 (I.logAll call called opened p arg is st n) n
      ((is.foldlM (I.step limits call p arg) st).run n) := by
  induction is with
  | nil => exact fun st n => .still (still_pure st) n
  | cons i is ih =>
    intro st n
    rw [List.foldlM_cons]
    cases n with
    | zero =>
      have hstop : (I.step limits call p arg st i).run 0 = (.error (.outOfSteps limits.steps), 0) :=
        run_bind_error rfl
      rw [run_bind_error hstop]
      exact .out
    | succ n =>
      have hstep : (I.step limits call p arg st i).run (n + 1) = (I.execute call p arg st i).run n :=
        run_bind_ok rfl
      have h := (I.accounts_execute hcall p arg st i n).execute i
      rw [← hstep] at h
      have h := h.bind _ ih
      rwa [hstep] at h

end

/-- A program is accounted for by its events, which start with its own entry. -/
theorem accounts_run (depth : Nat) : ∀ opened name arg n,
    Accounts limits opened depth 1 (I.log limits depth opened name arg n) n
      ((I.run limits depth name arg).run n) := by
  induction depth with
  | zero =>
    intro opened name arg n
    cases hlookup : I.lookup name with
    | error e =>
      rw [run_unknown hlookup]
      exact (Accounts.still (still_throw (I.uncut_lookup name e hlookup)) n).mono (Nat.zero_le 1)
    | ok p =>
      rw [run_zero hlookup]
      exact (Accounts.deep n).mono (Nat.zero_le 1)
  | succ depth ih =>
    intro opened name arg n
    cases hlookup : I.lookup name with
    | error e =>
      rw [run_unknown hlookup, log, hlookup]
      exact (Accounts.still (still_throw (I.uncut_lookup name e hlookup)) n).mono (Nat.zero_le 1)
    | ok p =>
      have hcall (name : String) (arg : ι) (n : Nat) : Accounts limits (opened + 1) depth 1
          (I.log limits depth (opened + 1) name arg n) n ((I.call limits depth name arg).run n) :=
        (ih (opened + 1) name arg n).bind_still fun r => still_lift (I.uncut_finish r.1 arg r.2)
      have h := (I.accounts_all hcall p arg p.instrs (I.start arg) n).bind_still
        fun st => still_pure (p, st)
      rw [run_succ hlookup, log, hlookup]
      exact h.enter name

theorem accounts_call (depth opened : Nat) (name : String) (arg : ι) (n : Nat) :
    Accounts limits opened depth 1 (I.log limits depth opened name arg n) n
      ((I.call limits depth name arg).run n) :=
  (accounts_run depth opened name arg n).bind_still fun r => still_lift (I.uncut_finish r.1 arg r.2)

end Interpreter

/-! ## The machines -/

/--
A run within its limits: the instructions that were executed and the steps that are left make up the
limit, programs were nested as deep as allowed at most, and as many were entered as instructions
executed, and one more, at most. It stopped at a limit only if it has reached it.
-/
structure Within (limits : Limits) (log : List Event) (left : Nat) (r : Except RuntimeError α) :
    Prop where
  counted : executed log + left = limits.steps
  depth_le : ∀ e ∈ log, e.depth ≤ limits.depth
  entered_le : entered log ≤ executed log + 1
  length_le : log.length ≤ 2 * limits.steps + 1
  outOfSteps : ∀ k, r = .error (.outOfSteps k) → k = limits.steps ∧ executed log = limits.steps
  tooDeep : ∀ k, r = .error (.nestedTooDeep k) →
    k = limits.depth ∧ (limits.depth = 0 ∨ ∃ e ∈ log, e.depth = limits.depth)

/-- The events of a whole run account for anything that stops at a limit only if the run does. -/
theorem Accounts.within {limits : Limits} {log : List Event} {x : Except RuntimeError α × Nat}
    {r : Except RuntimeError β} (h : Accounts limits 0 limits.depth 1 log limits.steps x)
    (hr : ∀ e, e.isLimit = true → r = .error e → x.1 = .error e) : Within limits log x.2 r := by
  have hcounted := h.counted
  have hentered := h.entered_le
  have hlength := length_log log
  refine ⟨hcounted, fun e he => ?_, hentered, by omega, fun k hk => ?_, fun k hk => ?_⟩
  · simpa only [Nat.zero_add] using h.depth_le e he
  · obtain ⟨hlimit, hleft⟩ := h.outOfSteps k (hr _ rfl hk)
    exact ⟨hlimit, by omega⟩
  · simpa only [Nat.zero_add] using h.tooDeep k (hr _ rfl hk)

namespace Machine

/-- The events of writing a record. -/
def storeLog (m : Machine) (name : String) (v : Value) (b : Builder) : List Event :=
  (storing m.programs).log m.limits m.limits.depth 0 name (b, v) m.limits.steps

/-- The events of reading a record. -/
def loadLog (m : Machine) (name : String) (s : Slice) : List Event :=
  (loading m.programs).log m.limits m.limits.depth 0 name s m.limits.steps

/-- A parser that reads nothing and calls itself. -/
example :
    let m : Machine := ⟨.ofList [⟨ProcName.load "P", "P", .parser, ["x"],
      [.load 0 "x" (.record "P" false)]⟩], { steps := 9, depth := 3 }⟩
    m.loadLog (ProcName.load "P") ⟨[], []⟩ =
      (List.range' 1 3).flatMap fun depth =>
        [.enter depth (ProcName.load "P"), .execute depth (.load 0 "x" (.record "P" false))] := by
  decide +kernel

end Machine
end CellPack
