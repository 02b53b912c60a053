import Mathlib
import CellPack.Proofs.Limits
/-!
# Thresholds

Limits cut a run off, and do nothing else. What ends without reaching a limit ends in the same way
within larger limits (`Limited.outcome_eq`), and it needs so many steps and so much depth, where more
of the one does not make up for less of the other (`Limited.exists_least`). The main result is
`Machine.limits_cutOff`, for writing and reading by any programs.
-/

namespace CellPack

open Step Run

variable {ι ο σ α β : Type}

/-- How a run ends within limits that it depends on. -/
def outcome (x : Limits → Run α) (limits : Limits) : Except RuntimeError α :=
  ((x limits).run limits.steps).1

/--
Within two limits the runs end alike, unless the first one stops for want of steps, or at a depth
that is smaller than in the second one.
-/
def Limited (x : Limits → Run α) : Prop :=
  ∀ (stop : RuntimeError → Bool) (more : Nat) (limits limits' : Limits),
    (stop (.outOfSteps limits.steps) = true ∨ more = 0 ∧ limits.steps = limits'.steps) →
    (limits.depth = limits'.depth
      ∨ limits.depth ≤ limits'.depth ∧ stop (.nestedTooDeep limits.depth) = true) →
    Matches stop more (x limits) (x limits')

/-! ## The limits that a run needs -/

namespace Limited

variable {x : Limits → Run α} {limits limits' : Limits} {n n' d d' : Nat}

section
variable (hx : Limited x)
include hx

/-- Larger limits do not change what has not reached a limit. -/
theorem outcome_eq (hle : limits ≤ limits') (h : Uncut (outcome x limits)) :
    outcome x limits' = outcome x limits := by
  have hmatches := hx (·.isLimit) (limits'.steps - limits.steps) limits limits' (.inl rfl)
    (.inr ⟨hle.2, rfl⟩)
  have hrun := hmatches.run_eq h
  rwa [Nat.add_sub_cancel' hle.1] at hrun

/-- A run that has not stopped for want of steps ends alike with more of them. -/
theorem outcome_steps (hle : n ≤ n')
    (h : ∀ e, outcome x ⟨n, d⟩ = .error e → e.isOutOfSteps = false) :
    outcome x ⟨n', d⟩ = outcome x ⟨n, d⟩ := by
  have hmatches := hx (·.isOutOfSteps) (n' - n) ⟨n, d⟩ ⟨n', d⟩ (.inl rfl) (.inl rfl)
  have hrun := hmatches.run_eq h
  rwa [Nat.add_sub_cancel' hle] at hrun

/-- A run that has not stopped because it was too deep ends alike with more depth. -/
theorem outcome_depth (hle : d ≤ d')
    (h : ∀ e, outcome x ⟨n, d⟩ = .error e → e.isTooDeep = false) :
    outcome x ⟨n, d'⟩ = outcome x ⟨n, d⟩ :=
  (hx (·.isTooDeep) 0 ⟨n, d⟩ ⟨n, d'⟩ (.inr ⟨rfl, rfl⟩) (.inr ⟨hle, rfl⟩)).run_eq h

/-- What gets by with few steps in some depth, and with little depth in some steps, needs no more. -/
theorem uncut_corner (hn : n ≤ n') (hd : d ≤ d') (hsteps : Uncut (outcome x ⟨n, d'⟩))
    (hdepth : Uncut (outcome x ⟨n', d⟩)) : Uncut (outcome x ⟨n, d⟩) := by
  -- The run in the corner stops in one way only, so one of the other two runs ends as it does.
  intro e he
  cases e with
  | outOfSteps k =>
    have hsame := hx.outcome_depth hd fun e' he' => by
      cases he.symm.trans he'
      rfl
    exact hsteps _ (hsame.trans he)
  | nestedTooDeep k =>
    have hsame := hx.outcome_steps hn fun e' he' => by
      cases he.symm.trans he'
      rfl
    exact hdepth _ (hsame.trans he)
  | _ => rfl

/-- The limits within which a run does not reach them are those above the least of them. -/
theorem exists_least (h : Uncut (outcome x limits)) :
    ∃ least : Limits, ∀ limits', Uncut (outcome x limits') ↔ least ≤ limits' := by
  classical
  have hsteps : ∃ n d, Uncut (outcome x ⟨n, d⟩) := ⟨limits.steps, limits.depth, h⟩
  have hdepth : ∃ d n, Uncut (outcome x ⟨n, d⟩) := ⟨limits.depth, limits.steps, h⟩
  obtain ⟨d, hd⟩ := Nat.find_spec hsteps
  obtain ⟨n, hn⟩ := Nat.find_spec hdepth
  have hleast : Uncut (outcome x ⟨Nat.find hsteps, Nat.find hdepth⟩) :=
    hx.uncut_corner (Nat.find_min' hsteps ⟨_, hn⟩) (Nat.find_min' hdepth ⟨_, hd⟩) hd hn
  refine ⟨⟨Nat.find hsteps, Nat.find hdepth⟩, fun limits' => ⟨fun h' => ⟨?_, ?_⟩, fun hle => ?_⟩⟩
  · exact Nat.find_min' hsteps ⟨_, h'⟩
  · exact Nat.find_min' hdepth ⟨_, h'⟩
  · rw [hx.outcome_eq hle hleast]
    exact hleast

end

/-- What is done with the result counts no steps and reaches no limit. -/
theorem bind_still {f : α → Run β} (hx : Limited x) (hf : ∀ a, Still (f a)) :
    Limited fun limits => x limits >>= f :=
  fun stop more limits limits' hsteps hdepth =>
    (hx stop more limits limits' hsteps hdepth).bind fun a => (hf a).matches

end Limited

theorem Interpreter.limited_run (I : Interpreter ι ο σ) (name : String) (arg : ι) :
    Limited fun limits => I.run limits limits.depth name arg :=
  fun _ _ _ _ hsteps hdepth =>
    matches_run hsteps (hdepth.imp_left fun hsame => ⟨hsame, hsame⟩) name arg

theorem Interpreter.limited_call (I : Interpreter ι ο σ) (name : String) (arg : ι) :
    Limited fun limits => I.call limits limits.depth name arg :=
  (I.limited_run name arg).bind_still fun r => still_lift (I.uncut_finish r.1 arg r.2)

/-! ## The machines -/

/--
Limits only cut off. What ends without reaching a limit, with a result or with an error, ends in the
same way and in the same state within larger limits. There is a least number of steps and a least
depth for it: it ends so if neither limit is smaller, and it is cut off if one of them is.
-/
structure CutOff (f : Limits → Except RuntimeError α × β) : Prop where
  same : ∀ limits limits', limits ≤ limits' → Uncut (f limits).1 → f limits' = f limits
  least : ∀ limits, Uncut (f limits).1 → ∃ least : Limits, ∀ limits',
    (least ≤ limits' → f limits' = f limits)
      ∧ (¬least ≤ limits' → ∃ e, (f limits').1 = .error e ∧ e.isLimit = true)

theorem exists_limit_of_not_uncut {r : Except RuntimeError α} (h : ¬Uncut r) :
    ∃ e, r = .error e ∧ e.isLimit = true := by
  unfold Uncut FailsWith at h
  push Not at h
  obtain ⟨e, he, hlimit⟩ := h
  exact ⟨e, he, by simpa using hlimit⟩

/-- It ends so within exactly the limits above the least ones. -/
theorem CutOff.exists_least {f : Limits → Except RuntimeError α × β} {limits : Limits}
    (hf : CutOff f) (h : Uncut (f limits).1) :
    ∃ least : Limits, ∀ limits', (f limits').1 = (f limits).1 ↔ least ≤ limits' := by
  obtain ⟨least, hleast⟩ := hf.least limits h
  refine ⟨least, fun limits' => ⟨fun hsame => ?_, fun hle => ?_⟩⟩
  · by_contra hle
    obtain ⟨e, he, hlimit⟩ := (hleast limits').2 hle
    rw [h e (hsame.symm.trans he)] at hlimit
    cases hlimit
  · rw [(hleast limits').1 hle]

/-- What is determined by the end of a run, and cut off if the run is. -/
theorem Limited.cutOff {x : Limits → Run α} {f : Limits → Except RuntimeError β × σ}
    (hx : Limited x) (hcut : ∀ limits, Uncut (f limits).1 ↔ Uncut (outcome x limits))
    (hsame : ∀ limits limits', Uncut (outcome x limits) →
      outcome x limits' = outcome x limits → f limits' = f limits) : CutOff f := by
  refine ⟨fun limits limits' hle h => ?_, fun limits h => ?_⟩
  · rw [hcut] at h
    exact hsame _ _ h (hx.outcome_eq hle h)
  · rw [hcut] at h
    obtain ⟨least, hleast⟩ := hx.exists_least h
    have h₀ : Uncut (outcome x least) := (hleast least).2 ⟨le_rfl, le_rfl⟩
    refine ⟨least, fun limits' => ⟨fun hle => ?_, fun hle => ?_⟩⟩
    · have hbelow : least ≤ limits := (hleast limits).1 h
      refine hsame _ _ h ?_
      rw [hx.outcome_eq hle h₀, hx.outcome_eq hbelow h₀]
    · exact exists_limit_of_not_uncut fun h' => hle ((hleast limits').1 ((hcut limits').1 h'))

namespace Machine

variable {set : ProgramSet} {limits limits' : Limits} {name : String} {v : Value} {b : Builder}
  {s : Slice} {p : Program}

/-- Running a serializer. -/
def writing (set : ProgramSet) (name : String) (v : Value) (b : Builder) (limits : Limits) :
    Run Builder := storeProgram set limits limits.depth name b v

/-- Running a parser. -/
def reading (set : ProgramSet) (name : String) (s : Slice) (limits : Limits) :
    Run (Program × Reading × Slice) := loadProgram set limits limits.depth name s

theorem limited_writing (set : ProgramSet) (name : String) (v : Value) (b : Builder) :
    Limited (writing set name v b) := by
  unfold writing
  simpa only [call_storing] using (storing set).limited_call name (b, v)

theorem limited_reading (set : ProgramSet) (name : String) (s : Slice) :
    Limited (reading set name s) := by
  unfold reading
  simpa only [← run_loading] using ((loading set).limited_run name s).bind_still
    fun r => still_pure (r.1, r.2, r.2.slices.headD s)

theorem uncut_store : Uncut ((store ⟨set, limits⟩ name v).run b).1 ↔
    Uncut (outcome (writing set name v b) limits) := by
  rw [(run_store ⟨set, limits⟩ name v b).1]
  refine ⟨fun h e he => h e ?_, fun h => FailsWith.map h⟩
  exact congrArg (Except.map fun _ => ()) he

theorem uncut_load : Uncut ((load ⟨set, limits⟩ name).run s).1 ↔
    Uncut (outcome (reading set name s) limits) := by
  constructor
  · intro h e he
    refine h e ?_
    simp only [outcome, reading] at he
    simp only [run_load, he]
  · intro h e he
    by_contra hlimit
    rw [Bool.not_eq_false] at hlimit
    rw [h e (limit_of_load he hlimit)] at hlimit
    cases hlimit

/-- A serializer that was not cut off has started. -/
theorem canStart_of_uncut (hlookup : set.lookup false name = .ok p)
    (h : Uncut (outcome (writing set name v b) limits)) :
    (⟨set, limits⟩ : Machine).canStart name = .ok () := by
  apply canStart_of_ok hlookup
  intro (hdepth : limits.depth = 0)
  have hzero : outcome (writing set name v b) limits = .error (.nestedTooDeep limits.depth) := by
    simp only [outcome, writing, hdepth, run_storeProgram_zero hlookup]
  cases h _ hzero

/-- The end of a serializer that is not cut off tells what becomes of the builder. -/
theorem store_eq (h : Uncut (outcome (writing set name v b) limits))
    (hsame : outcome (writing set name v b) limits' = outcome (writing set name v b) limits) :
    (store ⟨set, limits'⟩ name v).run b = (store ⟨set, limits⟩ name v).run b := by
  cases hlookup : set.lookup false name with
  | error e =>
    rw [run_store_refused (canStart_of_error hlookup), run_store_refused (canStart_of_error hlookup)]
  | ok p =>
    have h' : Uncut (outcome (writing set name v b) limits') := by rwa [hsame]
    rw [run_store_started (canStart_of_uncut hlookup h'),
      run_store_started (canStart_of_uncut hlookup h)]
    simp only [outcome, writing] at hsame
    simp only [hsame]

/-- The end of a parser tells what is read and what is left. -/
theorem load_eq
    (hsame : outcome (reading set name s) limits' = outcome (reading set name s) limits) :
    (load ⟨set, limits'⟩ name).run s = (load ⟨set, limits⟩ name).run s := by
  simp only [outcome, reading] at hsame
  simp only [run_load, hsame]

/--
**Limits never change what a run gives, they only cut it off**, whether it writes or reads, and
whatever programs it runs.
-/
theorem limits_cutOff (set : ProgramSet) (name : String) :
    (∀ v b, CutOff fun limits => (store ⟨set, limits⟩ name v).run b)
      ∧ ∀ s, CutOff fun limits => (load ⟨set, limits⟩ name).run s :=
  ⟨fun v b => (limited_writing set name v b).cutOff (fun _ => uncut_store)
      fun _ _ h hsame => store_eq h hsame,
    fun s => (limited_reading set name s).cutOff (fun _ => uncut_load)
      fun _ _ _ hsame => load_eq hsame⟩

/-- A serializer that writes a record by another one. -/
def sampleNested : ProgramSet := .ofList
  [⟨ProcName.store "P", "P", .serializer, ["q"], [.store 0 "q" (.record "Q" false)]⟩,
    ⟨ProcName.store "Q", "Q", .serializer, ["x"], [.store 0 "x" .bool]⟩]

/-- Writes a record with it. -/
def storeNested (limits : Limits) : Except RuntimeError Unit × Builder :=
  (store ⟨sampleNested, limits⟩ (ProcName.store "P")
    (.record [("q", .record [("x", .bool true)])])).run {}

/-- It needs two steps and a depth of two. -/
theorem limits_cutOff_nested :
    {limits | (storeNested limits).1 = .ok ()} = {limits | (⟨2, 2⟩ : Limits) ≤ limits} := by
  have hcut : CutOff storeNested := (limits_cutOff sampleNested (ProcName.store "P")).1 _ _
  have hboth : (storeNested ⟨2, 2⟩).1 = .ok () := by decide +kernel
  have hsteps : (storeNested ⟨1, 2⟩).1 ≠ .ok () := by decide +kernel
  have hdepth : (storeNested ⟨2, 1⟩).1 ≠ .ok () := by decide +kernel
  obtain ⟨⟨n, d⟩, hleast⟩ := hcut.exists_least (hboth ▸ failsWith_ok ())
  rw [hboth] at hleast
  simp only [ne_eq, hleast, Limits.le_def] at hboth hsteps hdepth
  have hneeds : n = 2 ∧ d = 2 := by omega
  obtain ⟨rfl, rfl⟩ := hneeds
  ext limits
  exact hleast limits

end Machine
end CellPack
