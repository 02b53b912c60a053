import Mathlib
import CellPack.Proofs.Compiled
import CellPack.Proofs.Interpreter
/-!
# Other limits

A run ends alike within other limits, as long as it does not stop at one of them
(`Interpreter.matches_run`).
-/

namespace CellPack

open Step

/-- Limits with no more steps and no more depth than others. -/
instance : LE Limits := ⟨fun a b => a.steps ≤ b.steps ∧ a.depth ≤ b.depth⟩

theorem Limits.le_def {a b : Limits} : a ≤ b ↔ a.steps ≤ b.steps ∧ a.depth ≤ b.depth := Iff.rfl

namespace RuntimeError

/-- Whether the run has stopped for want of steps. -/
def isOutOfSteps : RuntimeError → Bool
  | outOfSteps _ => true
  | _ => false

/-- Whether the run has stopped because programs were nested too deep. -/
def isTooDeep : RuntimeError → Bool
  | nestedTooDeep _ => true
  | _ => false

end RuntimeError

variable {ι ο σ α β : Type} {stop : RuntimeError → Bool} {more : Nat}

/-! ## Runs within other limits -/

namespace Run

/--
With so many more steps to take, the second run ends as the first one does and leaves as many more,
unless the first one stops.
-/
def Matches (stop : RuntimeError → Bool) (more : Nat) (x y : Run α) : Prop :=
  ∀ n, Agree stop (fun a n a' n' => a = a' ∧ n' = n + more) (x.run n) (y.run (n + more))

theorem matches_pure (a : α) : Matches stop more (pure a) (pure a) := fun _ => .ok ⟨rfl, rfl⟩

theorem matches_throw (e : RuntimeError) : Matches stop more (throw e : Run α) (throw e) :=
  fun n => .error e n _

theorem matches_stop {e : RuntimeError} (h : stop e = true) (y : Run α) :
    Matches stop more (throw e) y := fun _ => .stop h

theorem Still.matches {x : Run α} (h : Still x) : Matches stop more x x := by
  obtain ⟨r, -, hr⟩ := h
  intro n
  rw [hr, hr]
  cases r with
  | error e => exact .error e n _
  | ok a => exact .ok ⟨rfl, rfl⟩

theorem Matches.bind {x y : Run α} {f g : α → Run β} (h : Matches stop more x y)
    (hf : ∀ a, Matches stop more (f a) (g a)) : Matches stop more (x >>= f) (y >>= g) := by
  intro n
  refine (h n).bind ?_
  rintro a n' _ _ ⟨rfl, rfl⟩
  exact hf a n'

theorem matches_foldlM {f g : β → α → Run β} (h : ∀ b a, Matches stop more (f b a) (g b a))
    (as : List α) : ∀ b, Matches stop more (as.foldlM f b) (as.foldlM g b) := by
  induction as with
  | nil => exact matches_pure
  | cons a as ih => exact fun b => (h b a).bind ih

/-- What makes the same call is alike if the call is. -/
theorem Calls.matches {x : (String → ι → Run ο) → Run α} {c : Option (String × ι)}
    (h : Calls x c) {call call' : String → ι → Run ο}
    (hcall : ∀ name arg, Matches stop more (call name arg) (call' name arg)) :
    Matches stop more (x call) (x call') := by
  cases c with
  | none =>
    obtain ⟨y, hy, hx⟩ := h
    rw [hx, hx]
    exact hy.matches
  | some c =>
    obtain ⟨next, hnext, hx⟩ := h
    rw [hx, hx]
    exact (hcall _ _).bind fun o => (hnext o).matches

/-- A result that is reached without a stop. -/
theorem Matches.run_eq {x y : Run α} (h : Matches stop more x y) {n : Nat}
    (hstop : ∀ e, (x.run n).1 = .error e → stop e = false) : (y.run (n + more)).1 = (x.run n).1 := by
  have := (h n).map_eq (f := id) (g := id) hstop fun _ _ _ _ hsame => hsame.1
  have hid {r : Except RuntimeError α} : r.map id = r := by cases r <;> rfl
  rw [hid, hid] at this
  exact this.symm

/-- A step is counted in both runs, or there is none left: in the first one, or in both. -/
theorem matches_step {limits limits' : Limits}
    (h : stop (.outOfSteps limits.steps) = true ∨ more = 0 ∧ limits.steps = limits'.steps) :
    Matches stop more (Run.step limits) (Run.step limits') := by
  intro n
  cases n with
  | zero =>
    rcases h with hstop | ⟨rfl, hsame⟩
    · exact .stop hstop
    · change Agree stop _ (.error (.outOfSteps limits.steps), 0) (.error (.outOfSteps _), 0)
      rw [hsame]
      exact .error _ 0 0
  | succ n =>
    rw [Nat.add_right_comm]
    exact .ok ⟨rfl, rfl⟩

end Run

open Run

namespace Interpreter

variable {I : Interpreter ι ο σ} {limits limits' : Limits} {depth depth' : Nat}

/--
The runs of a program within two limits end alike, unless the first one stops for want of steps, or
at a level of programs where the second one may go deeper.
-/
theorem matches_run
    (hsteps : stop (.outOfSteps limits.steps) = true ∨ more = 0 ∧ limits.steps = limits'.steps)
    (hlevel : depth = depth' ∧ limits.depth = limits'.depth
      ∨ depth ≤ depth' ∧ stop (.nestedTooDeep limits.depth) = true) :
    ∀ name arg, Matches stop more (I.run limits depth name arg) (I.run limits' depth' name arg) := by
  induction depth generalizing depth' with
  | zero =>
    intro name arg
    unfold run
    refine (still_lift (I.uncut_lookup name)).matches.bind fun p => ?_
    rcases hlevel with ⟨rfl, hlabel⟩ | ⟨-, hstop⟩
    · rw [hlabel]
      exact matches_throw _
    · exact matches_stop hstop _
  | succ depth ih =>
    intro name arg
    obtain ⟨depth', rfl⟩ : ∃ below, depth' = below + 1 := by
      refine ⟨depth' - 1, ?_⟩
      rcases hlevel with ⟨rfl, -⟩ | ⟨hle, -⟩ <;> omega
    have hrun : ∀ name arg,
        Matches stop more (I.run limits depth name arg) (I.run limits' depth' name arg) := by
      refine ih ?_
      rcases hlevel with ⟨hsame, hlabel⟩ | ⟨hle, hstop⟩
      · exact .inl ⟨by omega, hlabel⟩
      · exact .inr ⟨by omega, hstop⟩
    have hcall (name : String) (arg : ι) : Matches stop more
        (I.call limits depth name arg) (I.call limits' depth' name arg) :=
      (hrun name arg).bind fun r => (still_lift (I.uncut_finish r.1 arg r.2)).matches
    unfold run
    refine (still_lift (I.uncut_lookup name)).matches.bind fun p => ?_
    refine (matches_foldlM (fun st i => ?_) p.instrs _).bind fun st => matches_pure _
    exact (matches_step hsteps).bind fun _ => (I.execute_calls p arg st i).matches hcall

theorem matches_call
    (hsteps : stop (.outOfSteps limits.steps) = true ∨ more = 0 ∧ limits.steps = limits'.steps)
    (hlevel : depth = depth' ∧ limits.depth = limits'.depth
      ∨ depth ≤ depth' ∧ stop (.nestedTooDeep limits.depth) = true) (name : String) (arg : ι) :
    Matches stop more (I.call limits depth name arg) (I.call limits' depth' name arg) :=
  (matches_run hsteps hlevel name arg).bind fun r =>
    (still_lift (I.uncut_finish r.1 arg r.2)).matches

end Interpreter

namespace Machine

variable {limits limits' : Limits} {call call' : String → Slice → Run (Value × Slice)}
  {set : ProgramSet} {depth depth' : Nat}

/-- A field is read alike if the records in it are. -/
theorem matches_loadOp (hcall : ∀ name s, Matches stop more (call name s) (call' name s))
    (op : FieldOp) (s : Slice) : Matches stop more (loadOp call op s) (loadOp call' op s) :=
  (calls_loadOp op s).matches hcall

/-- So is a whole record, unless the first run stops. -/
theorem matches_loadRecord (hsteps : stop (.outOfSteps limits.steps) = true)
    (hlevel : depth = depth' ∧ limits.depth = limits'.depth
      ∨ depth ≤ depth' ∧ stop (.nestedTooDeep limits.depth) = true) (name : String) (s : Slice) :
    Matches stop more (loadRecord set limits depth name s) (loadRecord set limits' depth' name s) := by
  rw [← call_loading, ← call_loading]
  exact Interpreter.matches_call (.inl hsteps) hlevel name s

/-- A write that fails has failed in its serializer. -/
theorem error_of_store {m : Machine} {name : String} {v : Value} {b : Builder} {e : RuntimeError}
    (h : ((m.store name v).run b).1 = .error e) :
    ((storeProgram m.programs m.limits m.limits.depth name b v).run m.limits.steps).1 =
      .error e := by
  rw [(run_store m name v b).1] at h
  exact map_eq_error h

/-- A load that has stopped at a limit stopped there in its parser, not for want of a field. -/
theorem limit_of_load {m : Machine} {name : String} {s : Slice} {e : RuntimeError}
    (h : ((m.load name).run s).1 = .error e) (hlimit : e.isLimit = true) :
    ((loadProgram m.programs m.limits m.limits.depth name s).run m.limits.steps).1 = .error e := by
  rw [run_load] at h
  rcases hrun : ((loadProgram m.programs m.limits m.limits.depth name s).run m.limits.steps).1 with
    e' | ⟨p, r, rest⟩
  · simp only [hrun] at h
    rw [Except.error.inj h]
  · have hfield : e.isLimit = false := uncut_toRecord p r e (by simpa only [hrun] using h)
    rw [hlimit] at hfield
    cases hfield

end Machine
end CellPack
