import Mathlib
/-!
# Steps that may fail

A check succeeds or fails. Writing, reading, running and laying out are all steps on a state that
may fail: `Ends` says how a step ends, with what value, in what state and with which errors.
-/

namespace CellPack

variable {ε σ α β : Type}

/-! ## Results -/

theorem bind_eq_ok {x : Except ε α} {f : α → Except ε β} {b : β} :
    x >>= f = .ok b ↔ ∃ a, x = .ok a ∧ f a = .ok b := by
  cases x with
  | error e => exact ⟨nofun, nofun⟩
  | ok a => exact ⟨fun h => ⟨a, rfl, h⟩, fun ⟨_, ha, h⟩ => by cases ha; exact h⟩

theorem bind_eq_error {x : Except ε α} {f : α → Except ε β} {e : ε} :
    x >>= f = .error e ↔ x = .error e ∨ ∃ a, x = .ok a ∧ f a = .error e := by
  cases x with
  | error e' =>
    constructor
    · intro h
      cases h
      exact .inl rfl
    · rintro (h | ⟨a, h, -⟩) <;> cases h
      rfl
  | ok a =>
    constructor
    · exact fun h => .inr ⟨a, rfl, h⟩
    · rintro (h | ⟨a', ha, h⟩)
      · cases h
      · cases ha
        exact h

theorem map_eq_ok {x : Except ε α} {f : α → β} {b : β} (h : x.map f = .ok b) :
    ∃ a, x = .ok a ∧ f a = b := by
  cases x <;> cases h
  exact ⟨_, rfl, rfl⟩

theorem map_eq_error {x : Except ε α} {f : α → β} {e : ε} (h : x.map f = .error e) :
    x = .error e := by
  cases x <;> cases h
  rfl

theorem exists_of_isOk {x : Except ε α} (h : x.isOk = true) : ∃ a, x = .ok a := by
  cases x with
  | error e => cases h
  | ok a => exact ⟨a, rfl⟩

/-- If it fails, it is with an error like that. -/
def FailsWith (P : ε → Prop) (x : Except ε α) : Prop := ∀ e, x = .error e → P e

section
variable {P Q : ε → Prop} {x : Except ε α}

theorem failsWith_ok (a : α) : FailsWith P (.ok a : Except ε α) := nofun

theorem failsWith_error {e : ε} (h : P e) : FailsWith P (.error e : Except ε α) := by
  rintro _ ⟨⟩
  exact h

theorem FailsWith.mono (h : FailsWith P x) (hsub : ∀ e, P e → Q e) : FailsWith Q x :=
  fun e he => hsub e (h e he)

theorem FailsWith.bind {f : α → Except ε β} (h : FailsWith P x) (hf : ∀ a, FailsWith P (f a)) :
    FailsWith P (x >>= f) := by
  cases x with
  | error e => exact failsWith_error (h e rfl)
  | ok a => exact hf a

theorem FailsWith.map {f : α → β} (h : FailsWith P x) : FailsWith P (f <$> x) := by
  cases x with
  | error e => exact failsWith_error (h e rfl)
  | ok a => exact failsWith_ok (f a)

end

/-- A check of all items succeeds if it does for each. -/
theorem forM_eq_ok {f : α → Except ε Unit} {xs : List α} :
    forM xs f = .ok () ↔ ∀ x ∈ xs, f x = .ok () := by
  induction xs with
  | nil => exact ⟨fun _ => by simp, fun _ => rfl⟩
  | cons x xs ih =>
    rw [List.forM_cons, bind_eq_ok, List.forall_mem_cons, ih]
    constructor
    · rintro ⟨⟨⟩, hx, hxs⟩
      exact ⟨hx, hxs⟩
    · rintro ⟨hx, hxs⟩
      exact ⟨(), hx, hxs⟩

/-- A check of all items fails with the error of the first item that fails it. -/
theorem forM_eq_error {f : α → Except ε Unit} {xs : List α} {e : ε} (h : forM xs f = .error e) :
    ∃ before x after, xs = before ++ x :: after ∧ (∀ y ∈ before, f y = .ok ()) ∧ f x = .error e := by
  induction xs with
  | nil => cases h
  | cons x xs ih =>
    rw [List.forM_cons] at h
    cases hx : f x with
    | error e' =>
      rw [hx] at h
      cases h
      exact ⟨[], x, xs, rfl, by simp, hx⟩
    | ok u =>
      rw [hx] at h
      obtain ⟨before, y, after, rfl, hbefore, hy⟩ := ih h
      exact ⟨x :: before, y, after, rfl, List.forall_mem_cons.2 ⟨hx, hbefore⟩, hy⟩

theorem forM_flatMap {m : Type → Type} [Monad m] [LawfulMonad m] {f : β → m Unit}
    {g : α → List β} {xs : List α} :
    forM (xs.flatMap g) f = forM xs fun x => forM (g x) f := by
  induction xs with
  | nil => rfl
  | cons x xs ih => rw [List.flatMap_cons, List.forM_append, ih, List.forM_cons]

/-! ## Steps -/

/-- A step on a state, which is kept when the step fails. -/
abbrev Step (ε σ α : Type) := ExceptT ε (StateM σ) α

namespace Step

theorem run_bind (x : Step ε σ α) (f : α → Step ε σ β) (s : σ) :
    (x >>= f).run s = ExceptT.bindCont f (x.run s).1 (x.run s).2 := rfl

theorem run_bind_ok {x : Step ε σ α} {f : α → Step ε σ β} {s s' : σ} {a : α}
    (h : x.run s = (.ok a, s')) : (x >>= f).run s = (f a).run s' := by
  rw [run_bind, h]
  rfl

theorem run_bind_error {x : Step ε σ α} {f : α → Step ε σ β} {s s' : σ} {e : ε}
    (h : x.run s = (.error e, s')) : (x >>= f).run s = (.error e, s') := by
  rw [run_bind, h]
  rfl

/-- Steps that succeed one behind the other each do. -/
theorem exists_of_run_bind {x : Step ε σ α} {f : α → Step ε σ β} {s t : σ} {b : β}
    (h : (x >>= f).run s = (.ok b, t)) :
    ∃ a s', x.run s = (.ok a, s') ∧ (f a).run s' = (.ok b, t) := by
  rw [run_bind] at h
  rcases hx : x.run s with ⟨e | a, s'⟩
  · rw [hx] at h
    cases h
  · rw [hx] at h
    exact ⟨a, s', rfl, h⟩

/-- A step from `s` ends in a value and a state as `ok` says, or in an error as `bad` says. -/
def Ends (x : Step ε σ α) (s : σ) (ok : α → σ → Prop) (bad : ε → σ → Prop) : Prop :=
  match x.run s with
  | (.ok a, s') => ok a s'
  | (.error e, s') => bad e s'

section
variable {x : Step ε σ α} {s s' : σ} {ok : α → σ → Prop} {bad : ε → σ → Prop}

theorem Ends.of_ok {a : α} (h : x.run s = (.ok a, s')) (ha : ok a s') : Ends x s ok bad := by
  rw [Ends, h]
  exact ha

theorem Ends.of_error {e : ε} (h : x.run s = (.error e, s')) (he : bad e s') :
    Ends x s ok bad := by
  rw [Ends, h]
  exact he

theorem Ends.ok_of_run {a : α} (h : Ends x s ok bad) (hr : x.run s = (.ok a, s')) : ok a s' := by
  rwa [Ends, hr] at h

theorem Ends.bad_of_run {e : ε} (h : Ends x s ok bad) (hr : x.run s = (.error e, s')) :
    bad e s' := by
  rwa [Ends, hr] at h

theorem Ends.ok_of_result {a : α} (h : Ends x s ok bad) (hr : (x.run s).1 = .ok a) :
    ok a (x.run s).2 := h.ok_of_run (Prod.ext hr rfl)

theorem Ends.bad_of_result {e : ε} (h : Ends x s ok bad) (hr : (x.run s).1 = .error e) :
    bad e (x.run s).2 := h.bad_of_run (Prod.ext hr rfl)

theorem ends_pure {a : α} (h : ok a s) : Ends (pure a : Step ε σ α) s ok bad := h

theorem ends_throw {e : ε} (h : bad e s) : Ends (throw e : Step ε σ α) s ok bad := h

theorem Ends.mono {ok' : α → σ → Prop} {bad' : ε → σ → Prop} (h : Ends x s ok bad)
    (hok : ∀ a s', ok a s' → ok' a s') (hbad : ∀ e s', bad e s' → bad' e s') :
    Ends x s ok' bad' := by
  unfold Ends at h ⊢
  split <;> simp_all

theorem ends_bind_of_run {ok' : β → σ → Prop} {f : α → Step ε σ β} {a : α}
    (h : x.run s = (.ok a, s')) (hf : Ends (f a) s' ok' bad) : Ends (x >>= f) s ok' bad := by
  rwa [Ends, run_bind_ok h]

theorem Ends.bind {ok' : β → σ → Prop} {f : α → Step ε σ β} (h : Ends x s ok bad)
    (hf : ∀ a s', ok a s' → Ends (f a) s' ok' bad) : Ends (x >>= f) s ok' bad := by
  rcases hx : x.run s with ⟨e | a, s'⟩
  · exact .of_error (run_bind_error hx) (h.bad_of_run hx)
  · have := hf a s' (h.ok_of_run hx)
    rwa [Ends, run_bind_ok hx]

/-- If errors do not count, a step in front only has to be followed by one that ends well. -/
theorem ends_bind_any {ok : β → σ → Prop} {f : α → Step ε σ β}
    (h : ∀ a s', Ends (f a) s' ok fun _ _ => True) : Ends (x >>= f) s ok fun _ _ => True := by
  rcases hx : x.run s with ⟨e | a, s'⟩
  · exact .of_error (run_bind_error hx) trivial
  · exact ends_bind_of_run hx (h a s')

/-- What each step keeps, steps for all items keep. -/
theorem ends_forM {f : α → Step ε σ Unit} {xs : List α} {inv : σ → Prop}
    (hf : ∀ x ∈ xs, ∀ s, inv s → Ends (f x) s (fun _ => inv) bad) (hs : inv s) :
    Ends (xs.forM f) s (fun _ => inv) bad := by
  induction xs generalizing s with
  | nil => exact ends_pure hs
  | cons x xs ih =>
    obtain ⟨hx, hxs⟩ := List.forall_mem_cons.1 hf
    exact (hx s hs).bind fun _ s' hs' => ih hxs hs'

end

/-! ## Two runs -/

/--
Two runs agree: the first one stops with an error as `stop` says, or both fail with the same error,
or both end in values and states that are related.
-/
inductive Agree (stop : ε → Bool) (R : α → σ → α → σ → Prop) :
    Except ε α × σ → Except ε α × σ → Prop where
  | stop {e : ε} {s : σ} {r : Except ε α × σ} (h : stop e = true) : Agree stop R (.error e, s) r
  | error (e : ε) (s s' : σ) : Agree stop R (.error e, s) (.error e, s')
  | ok {a a' : α} {s s' : σ} (h : R a s a' s') : Agree stop R (.ok a, s) (.ok a', s')

/-- If the first run does not stop, what is made of the two results is the same. -/
theorem Agree.map_eq {γ : Type} {stop : ε → Bool} {R : α → σ → α → σ → Prop}
    {r r' : Except ε α × σ} {f g : α → γ} (h : Agree stop R r r')
    (hstop : ∀ e, r.1 = .error e → stop e = false)
    (hsame : ∀ a s a' s', R a s a' s' → f a = g a') : r.1.map f = r'.1.map g := by
  cases h with
  | stop h =>
    rw [hstop _ rfl] at h
    cases h
  | error e => rfl
  | ok h => exact congrArg Except.ok (hsame _ _ _ _ h)

theorem Agree.bind {stop : ε → Bool} {R : α → σ → α → σ → Prop} {Q : β → σ → β → σ → Prop}
    {x y : Step ε σ α} {f g : α → Step ε σ β} {s s' : σ} (h : Agree stop R (x.run s) (y.run s'))
    (hf : ∀ a t a' t', R a t a' t' → Agree stop Q ((f a).run t) ((g a').run t')) :
    Agree stop Q ((x >>= f).run s) ((y >>= g).run s') := by
  rw [run_bind, run_bind]
  generalize x.run s = r at h ⊢
  generalize y.run s' = r' at h ⊢
  cases h with
  | stop h => exact .stop h
  | error e => exact .error e _ _
  | ok h => exact hf _ _ _ _ h

/-- The same step first, in the same state. -/
theorem agree_bind_same {stop : ε → Bool} {Q : β → σ → β → σ → Prop} {x : Step ε σ α}
    {f g : α → Step ε σ β} {s : σ}
    (hf : ∀ a t, Agree stop Q ((f a).run t) ((g a).run t)) :
    Agree stop Q ((x >>= f).run s) ((x >>= g).run s) := by
  rw [run_bind, run_bind]
  rcases x.run s with ⟨e | a, t⟩
  · exact .error e t t
  · exact hf a t

end Step
end CellPack
