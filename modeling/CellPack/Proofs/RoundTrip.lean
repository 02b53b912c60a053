import Mathlib
import CellPack.Proofs.Compiled
import CellPack.Proofs.FormatNames
/-!
# Round trips

The machine of a compiled store reads back what it has written (`Artifact.parse_serialize`), writes
back whatever it has read (`Artifact.serialize_parse`), and fails only because of the value, the
cell or its limits (`Artifact.run_errors`).
-/

namespace CellPack

open Step

theorem IntFormat.ne_of_ofText? {text : String} {f : IntFormat} (h : ofText? text = some f) :
    f ≠ .int 0 := by
  rintro rfl
  exact (widthWithin_of_ofText? h).1 rfl

/-- The formats of all integers in fields have a name. -/
def TypeStore.NamedFormats (s : TypeStore) : Prop :=
  ∀ t ∈ s.types, ∀ f ∈ t.fields, ∀ format ∈ f.type.formats,
    ∃ text, IntFormat.ofText? text = some format

/-! ## Machines of linked programs -/

namespace Machine

variable {m : Machine} {shape : String → Option Shape} {first : String → CellSize}
  {records : String → Prop} {name : String} {declared : Shape} {valid : Prop}

/-- Within its limits, the machine writes fields with one program and reads them with another. -/
def Stores (m : Machine) (shape : String → Option Shape) (valid : Prop) (writer reader : String)
    (declared : Shape) (size : CellSize) : Prop :=
  WritesFields shape valid (storeProgram m.programs m.limits m.limits.depth writer)
    (loadRecord m.programs m.limits m.limits.depth reader) declared size

theorem Linked.stores (linked : Linked m.programs shape first records)
    (hall : valid → AllSized shape records) (hname : records name)
    (hshape : shape name = some declared) :
    m.Stores shape valid (ProcName.store name) (ProcName.load name) declared (first name) :=
  linked.writesFields hall m.limits.depth name declared hname hshape

/-- What a program writes behind some bits is read back from behind them. -/
theorem Stores.storeAfter {writer reader : String} {size : CellSize}
    (h : m.Stores shape valid writer reader declared size) (bits : List Bool)
    (hbits : bits.length + size.bits ≤ maxCellBits) (hrefs : size.refs ≤ maxCellRefs) (v : Value) :
    (∀ e, m.storeAfter bits writer v = .error e →
        Refuses valid (∀ field ∈ declared.map (·.1), v.ConformsAt shape declared field) e)
      ∧ ∀ c, m.storeAfter bits writer v = .ok c →
        (∀ field ∈ declared.map (·.1), v.ConformsAt shape declared field)
          ∧ ∃ s, c.toSlice = (Builder.ofBits bits).onto s ∧ m.loadFrom reader s =
            .ok (.record ((declared.map (·.1)).filterMap (v.keptField shape declared))) := by
  have hends := h v { bits } m.limits.steps hbits (by simpa using hrefs)
  rw [storeAfter_eq]
  refine ⟨fun e he => hends.bad_of_result (map_eq_error he), fun c hc => ?_⟩
  obtain ⟨b, hb, rfl⟩ := map_eq_ok hc
  obtain ⟨hconf, e, k, rfl, hn, -, -, used, hused, hreads⟩ := hends.ok_of_result hb
  -- the parser has as many steps as the serializer had, and takes no more
  have hback := hreads ⟨[], []⟩ m.limits.steps (by omega)
  refine ⟨hconf, e.onto ⟨[], []⟩, ?_, ?_⟩
  · rw [Builder.toSlice_toCell, Builder.onto_append]
    rfl
  · rw [loadFrom_eq, hback]
    rfl

theorem Linked.serialize_error (linked : Linked m.programs shape first records)
    (hname : records name) {v : Value} {e : RuntimeError} (h : m.serialize name v = .error e) :
    e.isLimit = true ∨ e.isRefusal = true := by
  obtain ⟨declared, l, hshape, -⟩ := linked.code name hname
  obtain ⟨hbits, hrefs⟩ := linked.first_le name
  have hstores : m.Stores shape False (ProcName.store name) (ProcName.load name) declared
      (first name) := linked.stores nofun hname hshape
  exact ((hstores.storeAfter [] (by simpa using hbits) hrefs v).1 e h).imp_right And.left

/-- A record is written if it conforms, short of a limit, and then read back as what was kept. -/
theorem Linked.serialize_record (linked : Linked m.programs shape first records)
    (hname : records name) (hall : AllSized shape records) (entries : List (String × Value)) :
    (∀ e, m.serialize name (.record entries) = .error e →
        e.isLimit = true ∨ ¬Value.Conforms shape (.record name) (.record entries))
      ∧ ∀ c, m.serialize name (.record entries) = .ok c →
        Value.Conforms shape (.record name) (.record entries)
          ∧ m.parse name c = .ok (Value.norm shape (.record name) (.record entries)) := by
  obtain ⟨declared, l, hshape, code⟩ := linked.code name hname
  obtain ⟨hbits, hrefs⟩ := linked.first_le name
  have hstores : m.Stores shape True (ProcName.store name) (ProcName.load name) declared
      (first name) := linked.stores (fun _ => hall) hname hshape
  obtain ⟨herror, hok⟩ := hstores.storeAfter [] (by simpa using hbits) hrefs (.record entries)
  have hconf := (Value.conformsAt_iff shape entries code.distinct).trans
    (Value.conforms_record hshape).symm
  rw [Value.norm_record hshape]
  refine ⟨fun e h => ?_, fun c h => ?_⟩
  · exact (herror e h).imp_right fun h hc => h.2 trivial (hconf.2 hc)
  · obtain ⟨hc, s, hs, hback⟩ := hok c h
    refine ⟨hconf.1 hc, ?_⟩
    rw [parse, hs]
    exact hback

theorem Linked.parse_ok (linked : Linked m.programs shape first records) (hname : records name)
    {c : Cell} {v : Value} (h : m.parse name c = .ok v) : v.Exact shape (.record name) := by
  have hloads : LoadsRecord shape (loadRecord m.programs m.limits m.limits.depth) name :=
    linked.loadsRecord m.limits.depth name hname
  rw [parse, loadFrom_eq] at h
  obtain ⟨r, hr, rfl⟩ := map_eq_ok h
  exact (hloads c.toSlice m.limits.steps).ok_of_result hr

theorem loadFrom_error {s : Slice} {ok : Value × Slice → Nat → Prop} {e : RuntimeError}
    (hends : Ends (loadRecord m.programs m.limits m.limits.depth name s) m.limits.steps ok
      fun e _ => Rejects e)
    (h : m.loadFrom name s = .error e) : Rejects e := by
  rw [loadFrom_eq] at h
  exact hends.bad_of_result (map_eq_error h)

end Machine

/-! ## Compiled stores -/

theorem TypeStore.NamedFormats.int_zero_not_mem {s : TypeStore} (h : s.NamedFormats) {name : String}
    {declared : Shape} (hshape : s.shape name = some declared) :
    ∀ d ∈ declared, .int 0 ∉ d.2.formats := by
  intro d hd hzero
  obtain ⟨t, ht, rfl⟩ := Option.map_eq_some_iff.1 hshape
  obtain ⟨f, hf, rfl⟩ := List.mem_map.1 hd
  obtain ⟨text, htext⟩ := h t (TypeStore.mem_of_get? ht) f hf _ hzero
  exact IntFormat.ne_of_ofText? htext rfl

namespace Artifact

variable {s : TypeStore} {o : CompileOptions} {tools : Toolchain} {art : Artifact}

/-- A compiled store has been analysed, and its programs are linked to its record types. -/
theorem exists_analysis (hart : s.compile o tools = .ok art) (hplain : s.PlainNames)
    (hdistinct : s.DistinctFields) :
    ∃ a link, s.analyze tools.evaluator = .ok a ∧ a.Of s
      ∧ art.programs = (a.registry link).programs
      ∧ Machine.Linked art.programs s.shape a.firstSize s.LaidOut := by
  obtain ⟨a, link, hanalyze, hprograms⟩ := TypeStore.compile_ok hart
  have ha := TypeStore.analyze_ok hanalyze
  refine ⟨a, link, hanalyze, ha, hprograms, ?_⟩
  rw [hprograms]
  exact ha.linked hplain hdistinct link

theorem exists_linked (hart : s.compile o tools = .ok art) (hplain : s.PlainNames)
    (hdistinct : s.DistinctFields) (limits : Limits) :
    ∃ first, Machine.Linked (art.machine limits).programs s.shape first s.LaidOut := by
  obtain ⟨a, link, -, -, -, linked⟩ := exists_analysis hart hplain hdistinct
  exact ⟨a.firstSize, linked⟩

/-! ### A compiled sample -/

theorem exists_sample : ∃ art, sampleStore.compile { entry := "Wallet" } = .ok art :=
  exists_of_isOk (by decide +kernel)

theorem plainNames_sample : sampleStore.PlainNames := ⟨by decide, by decide⟩

theorem distinctFields_sample : sampleStore.DistinctFields := by
  unfold TypeStore.DistinctFields
  decide

theorem namedFormats_sample : sampleStore.NamedFormats := by
  have hall : ∀ t ∈ sampleStore.types, ∀ f ∈ t.fields, ∀ format ∈ f.type.formats,
      format = .int 257 ∨ format = .coins := by decide
  intro t ht f hf format hformat
  rcases hall t ht f hf format hformat with rfl | rfl
  · exact ⟨"int257", by decide⟩
  · exact ⟨"coins", by decide⟩

/-- A point out of order, with an entry that is not declared and more bits than the type has. -/
def samplePoint : List (String × Value) :=
  [("note", .null), ("y", .bits [0xab, 0xcd]), ("x", .int (-5)), ("y", .null)]

/-! ### Writing and reading back -/

/--
A record that conforms to its type is written, unless a limit is reached. What is written conforms,
and under the same limits it is read back as what writing keeps of it: of each record the first
entry of each declared field in the order of declaration, and of each bit string as many bits as its
type has.
-/
theorem parse_serialize (hart : s.compile o tools = .ok art) (hplain : s.PlainNames)
    (hdistinct : s.DistinctFields) (hformats : s.NamedFormats) {name : String}
    (hname : s.LaidOut name) (entries : List (String × Value)) (limits : Limits) :
    (Value.Conforms s.shape (.record name) (.record entries) →
        ∀ e, (art.machine limits).serialize name (.record entries) = .error e → e.isLimit = true)
      ∧ ∀ c, (art.machine limits).serialize name (.record entries) = .ok c →
        Value.Conforms s.shape (.record name) (.record entries)
          ∧ (art.machine limits).parse name c =
            .ok (Value.norm s.shape (.record name) (.record entries)) := by
  obtain ⟨first, linked⟩ := exists_linked hart hplain hdistinct limits
  obtain ⟨herror, hok⟩ := linked.serialize_record hname
    (fun _ _ _ hshape => hformats.int_zero_not_mem hshape) entries
  exact ⟨fun hconf e he => (herror e he).resolve_right (not_not.2 hconf), hok⟩

theorem parse_serialize_sample : ∃ art c, sampleStore.compile { entry := "Wallet" } = .ok art
    ∧ (art.machine {}).serialize "Point" (.record samplePoint) = .ok c
    ∧ (art.machine {}).parse "Point" c =
      .ok (.record [("x", .int (-5)), ("y", .bits [0xab, 0xc0])]) := by
  have hrun : (sampleStore.compile { entry := "Wallet" }).toOption.any (fun art =>
      ((art.machine {}).serialize "Point" (.record samplePoint)).isOk) = true := by decide +kernel
  obtain ⟨art, hart⟩ := exists_sample
  rw [hart] at hrun
  cases hc : (art.machine {}).serialize "Point" (.record samplePoint) with
  | error e =>
    change ((art.machine {}).serialize "Point" (.record samplePoint)).isOk = true at hrun
    rw [hc] at hrun
    cases hrun
  | ok c =>
    have hback := (parse_serialize hart plainNames_sample distinctFields_sample namedFormats_sample
      ⟨_, rfl, rfl⟩ samplePoint {}).2 c hc
    exact ⟨art, c, hart, hc, hback.2⟩

/-- More than the order of the fields changes: bits that the type does not have are lost. -/
theorem parse_serialize_cut : ¬∀ (s : TypeStore) (o : CompileOptions) (tools : Toolchain)
    (art : Artifact), s.compile o tools = .ok art → s.PlainNames → s.DistinctFields →
    s.NamedFormats → ∀ (name : String), s.LaidOut name →
    ∀ (entries : List (String × Value)) (limits : Limits),
    (Value.Conforms s.shape (.record name) (.record entries) →
        ∀ e, (art.machine limits).serialize name (.record entries) = .error e → e.isLimit = true)
      ∧ ∀ c, (art.machine limits).serialize name (.record entries) = .ok c →
        Value.Conforms s.shape (.record name) (.record entries)
          ∧ (art.machine limits).parse name c =
            .ok (Value.rebuild (fun _ v => v) s.shape (.record name) (.record entries)) := by
  intro h
  -- the fields are in order, so that only the bits can change
  let entries : List (String × Value) := [("x", .int (-5)), ("y", .bits [0xab, 0xcd])]
  have hrun : (sampleStore.compile { entry := "Wallet" }).toOption.any (fun art =>
      (((art.machine {}).serialize "Point" (.record entries)).bind fun c =>
        (art.machine {}).parse "Point" c).toOption.any fun v =>
          v.bytesAt? ["y"] = some [0xab, 0xc0]) = true := by decide +kernel
  obtain ⟨art, hart⟩ := exists_sample
  have hpoint := h sampleStore _ {} art hart plainNames_sample distinctFields_sample
    namedFormats_sample "Point" ⟨_, rfl, rfl⟩ entries {}
  rw [hart] at hrun
  simp only [Except.toOption, Option.any_some] at hrun
  cases hc : (art.machine {}).serialize "Point" (.record entries) with
  | error e =>
    rw [hc] at hrun
    cases hrun
  | ok c =>
    rw [hc, Except.bind, (hpoint.2 c hc).2] at hrun
    cases hrun

/--
What is read from any cell is a record of exactly the declared fields with exact values. It is
written again, unless a limit is reached, and then read back as it was.
-/
theorem serialize_parse (hart : s.compile o tools = .ok art) (hplain : s.PlainNames)
    (hdistinct : s.DistinctFields) (hformats : s.NamedFormats) {name : String}
    (hname : s.LaidOut name) {limits : Limits} {c : Cell} {v : Value}
    (hparse : (art.machine limits).parse name c = .ok v) :
    v.Exact s.shape (.record name)
      ∧ (∀ e, (art.machine limits).serialize name v = .error e → e.isLimit = true)
      ∧ ∀ c', (art.machine limits).serialize name v = .ok c' →
        (art.machine limits).parse name c' = .ok v := by
  obtain ⟨first, linked⟩ := exists_linked hart hplain hdistinct limits
  have hexact := linked.parse_ok hname hparse
  have hnames : ∀ name declared, s.shape name = some declared → (declared.map (·.1)).Nodup := by
    intro name declared hshape
    obtain ⟨t, ht, rfl⟩ := Option.map_eq_some_iff.1 hshape
    rw [Field.map_shape]
    exact hdistinct t (TypeStore.mem_of_get? ht)
  obtain ⟨entries, rfl⟩ : ∃ entries, v = .record entries := by
    cases hexact
    exact ⟨_, rfl⟩
  obtain ⟨herror, hok⟩ := linked.serialize_record hname
    (fun _ _ _ hshape => hformats.int_zero_not_mem hshape) entries
  refine ⟨hexact, fun e he => (herror e he).resolve_right (not_not.2 hexact.conforms), ?_⟩
  intro c' hc'
  rw [(hok c' hc').2, hexact.norm_eq hnames]

/-- A cell with more in it than a point. -/
theorem serialize_parse_sample : ∃ art v, sampleStore.compile { entry := "Wallet" } = .ok art
    ∧ (art.machine {}).parse "Point" (.mk (List.replicate 300 true) []) = .ok v
    ∧ v.Exact sampleStore.shape (.record "Point")
    ∧ ∀ c, (art.machine {}).serialize "Point" v = .ok c →
      (art.machine {}).parse "Point" c = .ok v := by
  have hrun : (sampleStore.compile { entry := "Wallet" }).toOption.any (fun art =>
      ((art.machine {}).parse "Point" (.mk (List.replicate 300 true) [])).isOk) = true := by
    decide +kernel
  obtain ⟨art, hart⟩ := exists_sample
  rw [hart] at hrun
  cases hv : (art.machine {}).parse "Point" (.mk (List.replicate 300 true) []) with
  | error e =>
    change ((art.machine {}).parse "Point" (.mk (List.replicate 300 true) [])).isOk = true at hrun
    rw [hv] at hrun
    cases hrun
  | ok v =>
    obtain ⟨hexact, -, hback⟩ := serialize_parse hart plainNames_sample distinctFields_sample
      namedFormats_sample ⟨_, rfl, rfl⟩ hv
    exact ⟨art, v, hart, hv, hexact, hback⟩

/-! ### Errors -/

/--
Writing any value fails only because of the value or a limit, and reading any cell only because of
what the cell holds or a limit.
-/
theorem run_errors (hart : s.compile o tools = .ok art) (hplain : s.PlainNames)
    (hdistinct : s.DistinctFields) {name : String} {t : RecordType} (ht : s.get? name = some t)
    (hkind : t.kind.hasLayout = true) (limits : Limits) :
    (∀ v e, (art.machine limits).serialize name v = .error e →
        e.isLimit = true ∨ e.isRefusal = true)
      ∧ ∀ c e, ((art.machine limits).parse name c = .error e
          ∨ (art.machine limits).parseNoHeader name c = .error e
          ∨ t.isMessage = true ∧ (art.machine limits).parseBounced name c = .error e) →
        e.isLimit = true ∨ e.isRejection = true := by
  obtain ⟨a, link, ha, hprograms⟩ := TypeStore.compile_ok hart
  have ha := TypeStore.analyze_ok ha
  have linked : Machine.Linked (art.machine limits).programs s.shape a.firstSize s.LaidOut := by
    rw [machine, hprograms]
    exact ha.linked hplain hdistinct link
  have hname : s.LaidOut name := ⟨t, ht, hkind⟩
  refine ⟨fun v e he => linked.serialize_error hname he, fun c e he => ?_⟩
  rcases he with he | he | ⟨hmessage, he⟩
  · have hmode : ParserMode.withHeader ≠ .bounced := nofun
    exact Machine.loadFrom_error (linked.ends_load hname hmode limits.depth c.toSlice limits.steps) he
  · have hmode : ParserMode.noHeader ≠ .bounced := nofun
    exact Machine.loadFrom_error (linked.ends_load hname hmode limits.depth c.toSlice limits.steps) he
  · obtain ⟨t', l, hshape, message⟩ := ha.message hplain hdistinct link ht hmessage
    have code := message.code
    have hlookup := message.bounced
    rw [← hprograms] at code hlookup
    have hfields := (Field.map_shape t'.fields).symm
    exact Machine.loadFrom_error
      (linked.ends_loadBounced hname hshape code hfields hlookup limits.depth c.toSlice limits.steps) he

theorem run_errors_sample : ∃ art, sampleStore.compile { entry := "Wallet" } = .ok art
    ∧ (∀ v e, (art.machine {}).serialize "Pay" v = .error e →
      e.isLimit = true ∨ e.isRefusal = true)
    ∧ ∀ c e, (art.machine {}).parseBounced "Pay" c = .error e →
      e.isLimit = true ∨ e.isRejection = true := by
  obtain ⟨art, hart⟩ := exists_sample
  have hpay : sampleStore.get? "Pay" = some _ := rfl
  obtain ⟨hwrite, hread⟩ := run_errors hart plainNames_sample distinctFields_sample hpay rfl {}
  exact ⟨art, hart, hwrite, fun c e he => hread c e (.inr (.inr ⟨rfl, he⟩))⟩

end Artifact
end CellPack
