import Mathlib
import CellPack.Proofs.Frames
import CellPack.Proofs.RoundTrip
/-!
# Framing

A serializer appends to a builder what it would write to an empty one, and the parser takes exactly
that from whatever stands around it (`Artifact.store_framed`). So records can be put one behind the
other, with anything before and behind them.
-/

namespace CellPack

open Step

/-! ## Linked programs -/

namespace Machine

variable {m : Machine} {shape : String → Option Shape} {first : String → CellSize}
  {records : String → Prop} {name : String}

/-- What a serializer appends does not depend on the builder, and is what the parser takes. -/
theorem Linked.store_onto (linked : Linked m.programs shape first records) (hname : records name)
    {entries : List (String × Value)} {b b' : Builder}
    (h : (m.store (ProcName.store name) (.record entries)).run b = (.ok (), b')) :
    ∃ e, (m.store (ProcName.store name) (.record entries)).run {} = (.ok (), e) ∧ b' = b ++ e
      ∧ ∀ rest, (m.load (ProcName.load name)).run (e.onto rest) =
        (.ok (Value.norm shape (.record name) (.record entries)), rest) := by
  obtain ⟨declared, l, hshape, -⟩ := linked.code name hname
  obtain ⟨hbits, hrefs⟩ := linked.first_le name
  have hstores : m.Stores shape False (ProcName.store name) (ProcName.load name) declared
      (first name) := linked.stores nofun hname hshape
  have hends := hstores (.record entries) {} m.limits.steps (by simpa using hbits)
    (by simpa using hrefs)
  have hframes : Run.Frames fun b =>
      storeProgram m.programs m.limits m.limits.depth (ProcName.store name) b (.record entries) :=
    linked.frames m.limits.depth name hname (.record entries)
  have hagree := hframes b {} m.limits.steps
  rw [Builder.append_empty] at hagree
  rw [run_store_ok] at h
  -- both runs end in the same number of steps, with a builder that differs by what was there
  generalize hrun : (storeProgram m.programs m.limits m.limits.depth (ProcName.store name) b
    (.record entries)).run m.limits.steps = r at hagree h
  generalize hfresh : (storeProgram m.programs m.limits m.limits.depth (ProcName.store name) {}
    (.record entries)).run m.limits.steps = r' at hagree
  cases hagree with
  | stop _ => cases h
  | error _ => cases h
  | @ok _ e n n' hsame =>
    obtain ⟨rfl, rfl⟩ := hsame
    cases h
    obtain ⟨-, e', k, rfl, hsteps, -, -, used, hused, hreads⟩ := hends.ok_of_run hfresh
    refine ⟨_, run_store_ok.2 (by rw [hfresh]), rfl, fun rest => run_load_ok.2 ?_⟩
    rw [Builder.empty_append, hreads rest _ (by omega), Value.norm_record hshape]

end Machine

/-! ## Compiled stores -/

namespace Artifact

variable {s : TypeStore} {o : CompileOptions} {tools : Toolchain} {art : Artifact}

/--
A record that is written to a builder with any contents is put behind them as it is written to an
empty one. From the cell of that builder, whatever else was put behind, the parser takes what was
appended, nothing in front and nothing behind, and gives what writing keeps of the record.
-/
theorem store_framed (hart : s.compile o tools = .ok art) (hplain : s.PlainNames)
    (hdistinct : s.DistinctFields) {name : String} (hname : s.LaidOut name)
    {entries : List (String × Value)} {limits : Limits} {b b' : Builder}
    (h : ((art.machine limits).store (ProcName.store name) (.record entries)).run b =
      (.ok (), b')) :
    ∃ e, ((art.machine limits).store (ProcName.store name) (.record entries)).run {} = (.ok (), e)
      ∧ b' = b ++ e
      ∧ ∀ tail : Builder, ((art.machine limits).load (ProcName.load name)).run
          ((b' ++ tail).toCell.toSlice.advance b.used) =
        (.ok (Value.norm s.shape (.record name) (.record entries)),
          (b' ++ tail).toCell.toSlice.advance b'.used) := by
  obtain ⟨first, linked⟩ := exists_linked hart hplain hdistinct limits
  obtain ⟨e, hfresh, rfl, hload⟩ := linked.store_onto hname h
  refine ⟨e, hfresh, rfl, fun tail => ?_⟩
  rw [Builder.advance_append (b ++ e), Builder.append_assoc, Builder.advance_append,
    Builder.toSlice_toCell, Builder.toSlice_toCell, Builder.onto_append, hload]

/-- A builder that holds something before a point is written to it. -/
def sampleBuilder : Builder := { bits := [true, false, true] }

theorem exists_store_samplePoint {art : Artifact}
    (hart : sampleStore.compile { entry := "Wallet" } = .ok art) :
    ∃ b', ((art.machine {}).store (ProcName.store "Point") (.record samplePoint)).run sampleBuilder =
      (.ok (), b') := by
  have hrun : (sampleStore.compile { entry := "Wallet" }).toOption.any (fun art =>
      (((art.machine {}).store (ProcName.store "Point") (.record samplePoint)).run
        sampleBuilder).1.isOk) = true := by decide +kernel
  rw [hart] at hrun
  obtain ⟨⟨⟩, h⟩ := exists_of_isOk hrun
  exact ⟨_, Prod.ext h rfl⟩

theorem store_framed_sample : ∃ art b', sampleStore.compile { entry := "Wallet" } = .ok art
    ∧ ((art.machine {}).store (ProcName.store "Point") (.record samplePoint)).run sampleBuilder =
      (.ok (), b')
    ∧ ((art.machine {}).load (ProcName.load "Point")).run
        ((b' ++ sampleBuilder).toCell.toSlice.advance sampleBuilder.used) =
      (.ok (.record [("x", .int (-5)), ("y", .bits [0xab, 0xc0])]), sampleBuilder.toCell.toSlice) := by
  obtain ⟨art, hart⟩ := exists_sample
  obtain ⟨b', hb'⟩ := exists_store_samplePoint hart
  have hname : sampleStore.LaidOut "Point" := ⟨_, rfl, rfl⟩
  obtain ⟨e, -, -, hload⟩ := store_framed hart plainNames_sample distinctFields_sample hname hb'
  have hback := hload sampleBuilder
  rw [Builder.advance_append b'] at hback
  exact ⟨art, b', hart, hb', hback⟩

/-- Not everything that was written is taken: bits that the type does not have are lost. -/
theorem store_framed_cut : ¬∀ (s : TypeStore) (o : CompileOptions) (tools : Toolchain)
    (art : Artifact), s.compile o tools = .ok art → s.PlainNames → s.DistinctFields →
    s.NamedFormats → ∀ (name : String), s.LaidOut name →
    ∀ (entries : List (String × Value)) (limits : Limits) (b b' : Builder),
    ((art.machine limits).store (ProcName.store name) (.record entries)).run b = (.ok (), b') →
    ∃ e, ((art.machine limits).store (ProcName.store name) (.record entries)).run {} = (.ok (), e)
      ∧ b' = b ++ e
      ∧ ∀ tail : Builder, ((art.machine limits).load (ProcName.load name)).run
          ((b' ++ tail).toCell.toSlice.advance b.used) =
        (.ok (Value.rebuild (fun _ v => v) s.shape (.record name) (.record entries)),
          (b' ++ tail).toCell.toSlice.advance b'.used) := by
  intro h
  have hrun : (sampleStore.compile { entry := "Wallet" }).toOption.any (fun art =>
      let b := (((art.machine {}).store (ProcName.store "Point") (.record samplePoint)).run
        sampleBuilder).2
      (((art.machine {}).load (ProcName.load "Point")).run
        ((b ++ {}).toCell.toSlice.advance sampleBuilder.used)).1.toOption.any fun v =>
          v.bytesAt? ["y"] = some [0xab, 0xc0]) = true := by decide +kernel
  obtain ⟨art, hart⟩ := exists_sample
  obtain ⟨b', hb'⟩ := exists_store_samplePoint hart
  obtain ⟨e, -, -, hload⟩ := h sampleStore _ {} art hart plainNames_sample distinctFields_sample
    namedFormats_sample "Point" ⟨_, rfl, rfl⟩ samplePoint {} sampleBuilder b' hb'
  rw [hart] at hrun
  simp only [Except.toOption, Option.any_some, hb', hload {}] at hrun
  cases hrun

end Artifact
end CellPack
