import Mathlib
import CellPack.Proofs.RoundTrip
/-!
# Failed stores

Every operation on a builder leaves the builder as it was when it fails (`Write.Puts`). A serializer
does not: once it has started, a failure leaves the builder of the caller empty
(`Artifact.store_failed`).
-/

namespace CellPack

open Step

namespace Machine

variable {m : Machine} {name : String} {v : Value} {b b' : Builder} {e : RuntimeError}

/-- A failed run leaves nothing of what the builder held. -/
theorem builder_of_store_error (hstart : m.canStart name = .ok ())
    (h : (m.store name v).run b = (.error e, b')) : b' = {} := by
  rw [run_store_started hstart] at h
  split at h <;> cases h
  rfl

/-- The builder is left alone only if nothing has run. -/
theorem builder_of_store_refused (hstart : m.canStart name ≠ .ok ())
    (h : (m.store name v).run b = (.error e, b')) : b' = b := by
  cases hcan : m.canStart name with
  | ok u => exact absurd hcan hstart
  | error e' =>
    rw [run_store_refused hcan] at h
    cases h
    rfl

end Machine

namespace Artifact

/--
A serializer fails without a trace only if no program may be started at all. If it has started, the
builder is empty after any failure, so it is as it was only if it was empty.
-/
theorem store_failed {art : Artifact} {name : String} {p : Program}
    (hp : art.programs.lookup false name = .ok p) {limits : Limits} {v : Value} {b b' : Builder}
    {e : RuntimeError} (h : ((art.machine limits).store name v).run b = (.error e, b')) :
    (b' = if limits.depth = 0 then b else {}) ∧ (b' = b ↔ limits.depth = 0 ∨ b = {}) := by
  by_cases hdepth : limits.depth = 0
  · have hrefused : (art.machine limits).canStart name = .error (.nestedTooDeep limits.depth) :=
      Machine.canStart_of_zero hp hdepth
    obtain rfl := Machine.builder_of_store_refused (by rw [hrefused]; nofun) h
    simp [hdepth]
  · obtain rfl := Machine.builder_of_store_error (Machine.canStart_of_ok hp hdepth) h
    simp [hdepth, eq_comm]

/-- A point whose second field is refused when the first one has been written. -/
def sampleMisfit : Value := .record [("x", .int 7), ("y", .bool true)]

theorem exists_store_sampleMisfit : ∃ art p e,
    sampleStore.compile { entry := "Wallet" } = .ok art
      ∧ art.programs.lookup false (ProcName.store "Point") = .ok p
      ∧ ((art.machine {}).store (ProcName.store "Point") sampleMisfit).run { bits := [true] } =
        (.error e, {}) := by
  have hrun : (sampleStore.compile { entry := "Wallet" }).toOption.any (fun art =>
      (art.programs.lookup false (ProcName.store "Point")).isOk
        && !(((art.machine {}).store (ProcName.store "Point") sampleMisfit).run
          { bits := [true] }).1.isOk) = true := by decide +kernel
  obtain ⟨art, hart⟩ := exists_sample
  rw [hart] at hrun
  simp only [Except.toOption, Option.any_some, Bool.and_eq_true, Bool.not_eq_true'] at hrun
  obtain ⟨hfound, hfailed⟩ := hrun
  obtain ⟨p, hp⟩ := exists_of_isOk hfound
  rcases h : ((art.machine {}).store (ProcName.store "Point") sampleMisfit).run
    { bits := [true] } with ⟨e | u, b⟩
  · have hstart : (art.machine {}).canStart (ProcName.store "Point") = .ok () :=
      Machine.canStart_of_ok hp (show ({} : Limits).depth ≠ 0 by decide)
    obtain rfl := Machine.builder_of_store_error hstart h
    exact ⟨art, p, e, hart, hp, h⟩
  · rw [h] at hfailed
    cases hfailed

theorem store_failed_sample : ∃ art p e b, sampleStore.compile { entry := "Wallet" } = .ok art
    ∧ art.programs.lookup false (ProcName.store "Point") = .ok p
    ∧ ((art.machine {}).store (ProcName.store "Point") sampleMisfit).run { bits := [true] } =
      (.error e, b)
    ∧ b = {} ∧ b ≠ { bits := [true] } := by
  obtain ⟨art, p, e, hart, hp, h⟩ := exists_store_sampleMisfit
  obtain ⟨hleft, hsame⟩ := store_failed hp h
  exact ⟨art, p, e, _, hart, hp, h, hleft, fun heq => absurd (hsame.1 heq) (by decide)⟩

/-- Not every failed store leaves the builder as it was. -/
theorem store_failed_cut : ¬∀ (s : TypeStore) (o : CompileOptions) (tools : Toolchain)
    (art : Artifact), s.compile o tools = .ok art → ∀ (name : String) (p : Program),
    art.programs.lookup false name = .ok p → ∀ (b b' : Builder) (v : Value) (limits : Limits)
    (e : RuntimeError), ((art.machine limits).store name v).run b = (.error e, b') →
      b'.bits = b.bits ∧ b'.refs = b.refs := by
  intro h
  obtain ⟨art, p, e, hart, hp, hrun⟩ := exists_store_sampleMisfit
  obtain ⟨hbits, -⟩ := h sampleStore _ {} art hart _ p hp _ _ _ {} e hrun
  cases hbits

end Artifact
end CellPack
