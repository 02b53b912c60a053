import Mathlib
import CellPack.Proofs.Frames
import CellPack.Proofs.Messages
/-!
# The data of contracts

The data of a contract starts with a flag, for which its layout and that of its parameters leave one
bit. So the flag changes nothing for what is written behind it, and the data are read back as what
they were written as (`Artifact.loadContract_data`).
-/

namespace CellPack

open Step

/-! ## Fields of a list -/

namespace Value

variable {shape : String → Option Shape} {declared : Shape} {entries : List (String × Value)}

/-- Each of the fields has an entry, and the first one conforms to its type. -/
def Fills (shape : String → Option Shape) (declared : Shape) (entries : List (String × Value)) :
    Prop :=
  ∀ d ∈ declared, ∃ x, entries.lookup d.1 = some x ∧ x.Conforms shape d.2

/-- The first entry of each of the fields, in their order, with its value rebuilt. -/
def rebuildFields (leaf : FieldType → Value → Value) (shape : String → Option Shape)
    (declared : Shape) (entries : List (String × Value)) : Value :=
  .record (declared.filterMap fun d =>
    (entries.lookup d.1).map fun x => (d.1, rebuild leaf shape d.2 x))

/-- What writing keeps of entries for the fields. -/
def normFields : (String → Option Shape) → Shape → List (String × Value) → Value :=
  rebuildFields cutBits

theorem normFields_eq (h : (declared.map (·.1)).Nodup) :
    normFields shape declared entries =
      .record ((declared.map (·.1)).filterMap (keptField shape declared (.record entries))) := by
  rw [normFields, rebuildFields, List.filterMap_map]
  refine congrArg Value.record (List.filterMap_congr fun d hd => ?_)
  simp only [Function.comp_apply, keptField, get?, lookup_of_mem h hd]
  rfl

end Value

/-- The parameters of each contract have names of their own, and their formats have a name. -/
structure TypeStore.PlainParams (s : TypeStore) : Prop where
  distinct : ∀ t ∈ s.types, ∀ params, t.init = some params → (params.map (·.name)).Nodup
  named : ∀ t ∈ s.types, ∀ params, t.init = some params → ∀ f ∈ params,
    ∀ format ∈ f.type.formats, ∃ text, IntFormat.ofText? text = some format

/-- The fields or the parameters in the data of a contract. -/
def ContractData.value : ContractData → Value
  | initialized v | pending v => v

/-! ## Writing behind a flag -/

theorem Refuses.not_full {valid conforms : Prop} {e : RuntimeError} (h : Refuses valid conforms e) :
    e.isFull = false := by
  rcases h with h | ⟨h, -⟩
  · cases e with
    | cell e => cases h
    | _ => rfl
  · cases e with
    | cell e =>
      cases e with
      | bitOverflow _ _ | refOverflow => cases h
      | _ => rfl
    | _ => rfl

namespace Machine

variable {m : Machine} {shape : String → Option Shape} {first : String → CellSize}
  {records : String → Prop} {name : String} {declared : Shape} {valid : Prop} {l : Layout}

/-- A serializer of a layout and a parser of it that looks for no other header. -/
theorem Linked.stores_laid (linked : Linked m.programs shape first records)
    (hall : valid → AllSized shape records) (laid : Laid first declared l)
    (hsized : valid → Sized declared)
    (hmentioned : ∀ d ∈ declared, ∀ other ∈ d.2.mentioned, records other) {writer reader : String}
    {mode : ParserMode} (hwriter : m.programs.lookup false writer = .ok l.serializer)
    (hreader : m.programs.lookup true reader = .ok (l.parser mode))
    (hmode : mode = .noHeader → l.header = none) :
    m.Stores shape valid writer reader declared l.writtenSize := by
  unfold Stores
  cases m.limits.depth with
  | zero => exact fun v b n _ _ => .of_error (run_storeProgram_zero hwriter b v n) (.inl rfl)
  | succ depth =>
    exact laid.writesFields hwriter hreader hmode
      (linked.storesPlacement hall laid hsized hmentioned depth)

/-- With a bit for a flag and no header, there is room behind the flag. -/
theorem Laid.writtenSize_le (laid : Laid first declared l) (hheader : l.header = none)
    (hreserved : l.reserved = 1) :
    1 + l.writtenSize.bits ≤ maxCellBits ∧ l.writtenSize.refs ≤ maxCellRefs := by
  obtain ⟨c, rest, hcells, hc, -⟩ := laid.cells
  obtain ⟨hbits, hrefs⟩ := Layout.firstCellSize_le hcells hc.used_fits
  have hflag : l.flagBits = 1 := by
    rw [Layout.flagBits, hheader, hreserved]
    rfl
  refine ⟨?_, hrefs⟩
  simp only [Layout.writtenSize, hflag, maxCellBits] at hbits ⊢
  omega

/-- Behind bits that leave room, a record is written as it is without them. -/
theorem Linked.storeAfter_eq_serialize (linked : Linked m.programs shape first records)
    (hname : records name) {reader : String} {size : CellSize}
    (h : m.Stores shape valid (ProcName.store name) reader declared size) (bits : List Bool)
    (hbits : bits.length + size.bits ≤ maxCellBits) (hrefs : size.refs ≤ maxCellRefs) (v : Value) :
    m.storeAfter bits (ProcName.store name) v =
      (m.serialize name v).map fun c => .mk (bits ++ c.bits) c.refs := by
  have hends := h v { bits } m.limits.steps hbits (by simpa using hrefs)
  have hframes : Run.Frames fun b =>
      storeProgram m.programs m.limits m.limits.depth (ProcName.store name) b v :=
    linked.frames m.limits.depth name hname v
  have hagree := hframes (.ofBits bits) {} m.limits.steps
  rw [Builder.append_empty] at hagree
  have hcells := hagree.map_eq (f := Builder.toCell)
    (g := fun b => Cell.mk (bits ++ b.bits) b.refs)
    (fun e he => (hends.bad_of_result he).not_full) (by rintro _ _ b _ ⟨rfl, -⟩; rfl)
  rw [serialize, storeAfter_eq, storeAfter_eq]
  refine hcells.trans ?_
  generalize ((storeProgram _ _ _ _ _ _).run _).1 = r
  cases r <;> rfl

/-- The flag says what is behind it. -/
theorem loadContract_onto (m : Machine) (name : String) (initialized : Bool) {s : Slice} {d : Cell}
    (h : d.toSlice = (Builder.ofBits [initialized]).onto s) :
    m.loadContract name d =
      if initialized then .initialized <$> m.loadFrom (ProcName.loadNoHeader name) s
      else .pending <$> m.loadFrom (ProcName.load (ProcName.initType name)) s := by
  have hread : readStep Slice.loadBit d.toSlice = .ok (initialized, s) := by
    rw [readStep, h, Slice.reads_loadBit initialized s]
  rw [loadContract, hread]
  rfl

/-- The data of a contract are its record behind a flag, and are read back as its state. -/
theorem Linked.loadContract_contractData (linked : Linked m.programs shape first records)
    (hname : records name) (hshape : shape name = some declared)
    (code : Code m.programs first name declared l) (hheader : l.header = none)
    (hreserved : l.reserved = 1) (entries : List (String × Value)) :
    m.contractData name (.record entries) =
        (m.serialize name (.record entries)).map (fun c => .mk (true :: c.bits) c.refs)
      ∧ ∀ d, m.contractData name (.record entries) = .ok d →
        m.loadContract name d =
          .ok (.initialized (Value.norm shape (.record name) (.record entries))) := by
  have hstores : m.Stores shape False (ProcName.store name) (ProcName.loadNoHeader name) declared
      l.writtenSize :=
    linked.stores_laid nofun code.toLaid nofun (linked.mentioned name declared hname hshape)
      code.serializer (code.parser .noHeader nofun) fun _ => hheader
  obtain ⟨hbits, hrefs⟩ := code.toLaid.writtenSize_le hheader hreserved
  refine ⟨linked.storeAfter_eq_serialize hname hstores [true] hbits hrefs _, fun d hd => ?_⟩
  obtain ⟨-, rest, hslice, hback⟩ := (hstores.storeAfter [true] hbits hrefs _).2 d hd
  rw [m.loadContract_onto name true hslice, if_pos rfl, hback, Value.norm_record hshape]
  rfl

/--
Parameters of a contract are written if they fill its list, short of a limit, and are read back as
parameters.
-/
theorem Linked.loadContract_initData (linked : Linked m.programs shape first records)
    (hall : AllSized shape records) (laid : Laid first declared l) (hsized : Sized declared)
    (hheader : l.header = none) (hreserved : l.reserved = 1)
    (hmentioned : ∀ d ∈ declared, ∀ other ∈ d.2.mentioned, records other)
    (hwriter : m.programs.lookup false (ProcName.store (ProcName.initType name)) =
      .ok l.serializer)
    (hreader : m.programs.lookup true (ProcName.load (ProcName.initType name)) =
      .ok (l.parser .withHeader)) (entries : List (String × Value)) :
    (Value.Fills shape declared entries →
        ∀ e, m.initData name (.record entries) = .error e → e.isLimit = true)
      ∧ ∀ d, m.initData name (.record entries) = .ok d →
        Value.Fills shape declared entries
          ∧ m.loadContract name d = .ok (.pending (Value.normFields shape declared entries)) := by
  have hstores : m.Stores shape True (ProcName.store (ProcName.initType name))
      (ProcName.load (ProcName.initType name)) declared l.writtenSize :=
    linked.stores_laid (fun _ => hall) laid (fun _ => hsized) hmentioned hwriter hreader nofun
  obtain ⟨hbits, hrefs⟩ := laid.writtenSize_le hheader hreserved
  obtain ⟨herror, hok⟩ := hstores.storeAfter [false] hbits hrefs (.record entries)
  have hfills := Value.conformsAt_iff shape entries laid.distinct
  refine ⟨fun hfill e he => ?_, fun d hd => ?_⟩
  · exact (herror e he).resolve_right fun hrefuses => hrefuses.2 trivial (hfills.2 hfill)
  · obtain ⟨hconf, rest, hslice, hback⟩ := hok d hd
    refine ⟨hfills.1 hconf, ?_⟩
    rw [m.loadContract_onto name false hslice, hback, Value.normFields_eq laid.distinct]
    rfl

end Machine

/-! ## Compiled stores -/

theorem TypeStore.PlainParams.int_zero_not_mem {s : TypeStore} (h : s.PlainParams) {t : RecordType}
    (ht : t ∈ s.types) {params : List Field} (hinit : t.init = some params) :
    ∀ d ∈ Field.shape params, .int 0 ∉ d.2.formats := by
  intro d hd hzero
  obtain ⟨f, hf, rfl⟩ := List.mem_map.1 hd
  obtain ⟨text, htext⟩ := h.named t ht params hinit f hf _ hzero
  exact IntFormat.ne_of_ofText? htext rfl

theorem plainParams_sampleBank : sampleBank.PlainParams := by
  have hall : ∀ t ∈ sampleBank.types, ∀ params ∈ t.init, (params.map (·.name)).Nodup
      ∧ ∀ f ∈ params, ∀ format ∈ f.type.formats, format = .uint 32 := by decide
  refine ⟨fun t ht params hinit => (hall t ht params hinit).1, ?_⟩
  intro t ht params hinit f hf format hformat
  obtain rfl := (hall t ht params hinit).2 f hf format hformat
  exact ⟨"uint32", by decide⟩

namespace Artifact

variable {s : TypeStore} {o : CompileOptions} {tools : Toolchain} {art : Artifact}

/--
The data of a contract are written whenever its record is, and read back as its state. Parameters
that fill the list of the contract are written, unless a limit is reached; what is written is read
back as parameters. Both come back as what writing keeps of them.
-/
theorem loadContract_data (hart : s.compile o tools = .ok art) (hplain : s.PlainNames)
    (hdistinct : s.DistinctFields) (hformats : s.NamedFormats) (hparams : s.PlainParams)
    {name : String} {t : RecordType} (ht : s.get? name = some t) (hcontract : t.isContract = true)
    (limits : Limits) :
    (∀ entries,
        ((∃ d, (art.machine limits).contractData name (.record entries) = .ok d) ↔
          ∃ c, (art.machine limits).serialize name (.record entries) = .ok c)
        ∧ ∀ d, (art.machine limits).contractData name (.record entries) = .ok d →
          (art.machine limits).loadContract name d =
            .ok (.initialized (Value.norm s.shape (.record name) (.record entries))))
      ∧ ∀ params, t.init = some params → ∀ entries,
        (Value.Fills s.shape (Field.shape params) entries →
          ∀ e, (art.machine limits).initData name (.record entries) = .error e → e.isLimit = true)
        ∧ ∀ d, (art.machine limits).initData name (.record entries) = .ok d →
          Value.Fills s.shape (Field.shape params) entries
            ∧ (art.machine limits).loadContract name d =
              .ok (.pending (Value.normFields s.shape (Field.shape params) entries)) := by
  obtain ⟨a, link, -, ha, hprograms, linked⟩ := exists_analysis hart hplain hdistinct
  have hname : s.LaidOut name := .of_contract ht hcontract
  refine ⟨fun entries => ?_, fun params hinit entries => ?_⟩
  · obtain ⟨declared, l, hshape, code, hheader, hreserved⟩ :=
      ha.contract hplain hdistinct link ht hcontract
    rw [← hprograms] at code
    obtain ⟨hdata, hload⟩ := Machine.Linked.loadContract_contractData (m := art.machine limits)
      linked hname hshape code hheader hreserved entries
    refine ⟨⟨fun ⟨d, hd⟩ => ?_, fun ⟨c, hc⟩ => ?_⟩, hload⟩
    · obtain ⟨c, hc, -⟩ := map_eq_ok (hdata.symm.trans hd)
      exact ⟨c, hc⟩
    · rw [hdata, hc]
      exact ⟨_, rfl⟩
  · have htmem := TypeStore.mem_of_get? ht
    obtain ⟨l, laid, hheader, hreserved, hwriter, hreader, hmentioned⟩ :=
      ha.params hplain link ht hcontract hinit (hparams.distinct t htmem params hinit)
    rw [← hprograms] at hwriter hreader
    exact Machine.Linked.loadContract_initData (m := art.machine limits) linked
      (fun _ _ _ hshape => hformats.int_zero_not_mem hshape) laid
      (hparams.int_zero_not_mem htmem hinit) hheader hreserved hmentioned hwriter hreader entries

/-- The owner of a bank. -/
def sampleOwner : Address := ⟨0, List.replicate 32 0xab, by decide, by decide⟩

/-- The state of a bank, its fields out of order, with more bits than the mark of a tag has. -/
def sampleState : List (String × Value) :=
  [("tag", .record [("mark", .bits [0xab, 0xcd]), ("open", .bool true)]), ("total", .int 5),
    ("owner", .address sampleOwner)]

/-- The parameters of a bank, with an entry that is not declared. -/
def sampleParams : List (String × Value) :=
  [("note", .null), ("tag", .record [("open", .bool false), ("mark", .bits [0xab, 0xcd])]),
    ("seed", .int 9)]

theorem exists_data_sampleBank {art : Artifact}
    (hart : sampleBank.compile { entry := "Bank" } = .ok art) :
    ∃ d e, (art.machine {}).contractData "Bank" (.record sampleState) = .ok d
      ∧ (art.machine {}).initData "Bank" (.record sampleParams) = .ok e := by
  have hrun : (sampleBank.compile { entry := "Bank" }).toOption.any (fun art =>
      ((art.machine {}).contractData "Bank" (.record sampleState)).isOk
        && ((art.machine {}).initData "Bank" (.record sampleParams)).isOk) = true := by
    decide +kernel
  rw [hart] at hrun
  obtain ⟨hdata, hinit⟩ := Bool.and_eq_true_iff.1 hrun
  obtain ⟨d, hd⟩ := exists_of_isOk hdata
  obtain ⟨e, he⟩ := exists_of_isOk hinit
  exact ⟨d, e, hd, he⟩

/-- A bank in both phases. -/
theorem loadContract_data_sample : ∃ art d e, sampleBank.compile { entry := "Bank" } = .ok art
    ∧ (art.machine {}).contractData "Bank" (.record sampleState) = .ok d
    ∧ (art.machine {}).loadContract "Bank" d = .ok (.initialized (.record
      [("owner", .address sampleOwner), ("total", .int 5),
        ("tag", .record [("mark", .bits [0xab, 0xc0]), ("open", .bool true)])]))
    ∧ (art.machine {}).initData "Bank" (.record sampleParams) = .ok e
    ∧ (art.machine {}).loadContract "Bank" e = .ok (.pending (.record [("seed", .int 9),
        ("tag", .record [("mark", .bits [0xab, 0xc0]), ("open", .bool false)])])) := by
  obtain ⟨art, hart⟩ := exists_sampleBank
  obtain ⟨d, e, hd, he⟩ := exists_data_sampleBank hart
  obtain ⟨t, ht, hcontract, hinit⟩ : ∃ t, sampleBank.get? "Bank" = some t ∧ t.isContract = true
      ∧ t.init = some [{ name := "seed", type := .int (.uint 32) },
        { name := "tag", type := .record "Tag" }] := ⟨_, rfl, rfl, rfl⟩
  obtain ⟨hstate, hparams⟩ := loadContract_data hart plainNames_sampleBank
    distinctFields_sampleBank namedFormats_sampleBank plainParams_sampleBank ht hcontract {}
  exact ⟨art, d, e, hart, hd, (hstate _).2 d hd, he, ((hparams _ hinit _).2 e he).2⟩

/-- Not all of the state comes back: bits that the type does not have are lost. -/
theorem loadContract_data_cut : ¬∀ (s : TypeStore) (o : CompileOptions) (tools : Toolchain)
    (art : Artifact), s.compile o tools = .ok art → s.PlainNames → s.DistinctFields →
    s.NamedFormats → s.PlainParams → ∀ (name : String) (t : RecordType), s.get? name = some t →
    t.isContract = true → ∀ limits : Limits,
    (∀ entries,
        ((∃ d, (art.machine limits).contractData name (.record entries) = .ok d) ↔
          ∃ c, (art.machine limits).serialize name (.record entries) = .ok c)
        ∧ ∀ d, (art.machine limits).contractData name (.record entries) = .ok d →
          (art.machine limits).loadContract name d = .ok (.initialized
            (Value.rebuild (fun _ v => v) s.shape (.record name) (.record entries))))
      ∧ ∀ params, t.init = some params → ∀ entries,
        (Value.Fills s.shape (Field.shape params) entries →
          ∀ e, (art.machine limits).initData name (.record entries) = .error e → e.isLimit = true)
        ∧ ∀ d, (art.machine limits).initData name (.record entries) = .ok d →
          Value.Fills s.shape (Field.shape params) entries
            ∧ (art.machine limits).loadContract name d = .ok (.pending
              (Value.rebuildFields (fun _ v => v) s.shape (Field.shape params) entries)) := by
  intro h
  have hrun : (sampleBank.compile { entry := "Bank" }).toOption.any (fun art =>
      (((art.machine {}).contractData "Bank" (.record sampleState)).bind fun d =>
        (art.machine {}).loadContract "Bank" d).toOption.any fun data =>
          data.value.bytesAt? ["tag", "mark"] = some [0xab, 0xc0]) = true := by decide +kernel
  obtain ⟨art, hart⟩ := exists_sampleBank
  obtain ⟨d, e, hd, -⟩ := exists_data_sampleBank hart
  obtain ⟨t, ht, hcontract⟩ : ∃ t, sampleBank.get? "Bank" = some t ∧ t.isContract = true :=
    ⟨_, rfl, rfl⟩
  obtain ⟨hstate, -⟩ := h sampleBank _ {} art hart plainNames_sampleBank distinctFields_sampleBank
    namedFormats_sampleBank plainParams_sampleBank "Bank" t ht hcontract {}
  rw [hart] at hrun
  simp only [Except.toOption, Option.any_some] at hrun
  rw [hd, Except.bind, (hstate sampleState).2 d hd] at hrun
  cases hrun

end Artifact
end CellPack
