import Mathlib
import CellPack.Proofs.RoundTrip
/-!
# Messages

Every message starts with a header of its own, so the parsers of other messages refuse it
(`Artifact.parse_otherMessage`).
-/

namespace CellPack

open Step

/-! ## Headers -/

/-- The header of a message in the analysed store. -/
def Analysis.header? (a : Analysis) (name : String) : Option UInt32 :=
  (a.store.get? name).bind (·.headerValue)

/-- The slice starts with the header. -/
def Slice.StartsWith (s : Slice) (header : UInt32) : Prop :=
  ∃ word rest, (Slice.loadUint headerBits).run s = (.ok word, rest)
    ∧ UInt32.ofNat word.toNat = header

theorem Layout.instrs_parser_cons {l : Layout} {header : UInt32} (h : l.header = some header)
    (mode : ParserMode) (hmode : mode ≠ .noHeader) :
    ∃ is, (l.parser mode).instrs = .checkHeader 0 header :: is := by
  refine ⟨loadCells 0 l.cells ++ l.omitted.map fun d => .setDefault d.1 d.2, ?_⟩
  change (if mode = .noHeader then none else l.header.map (Instr.checkHeader 0)).toList
    ++ loadCells 0 l.cells ++ _ = _
  rw [if_neg hmode, h]
  rfl

namespace Machine

section
variable {set : ProgramSet} {limits : Limits} {depth : Nat} {name : String} {p : Program}
  {header : UInt32} {is : List Instr}

theorem run_checkHeader {load : String → Slice → Run (Value × Slice)} (s : Slice) (n : Nat) :
    (loadInstr load p { slices := [s] } (.checkHeader 0 header)).run n =
      (Run.read (Slice.loadUint headerBits) s >>= fun r =>
        if UInt32.ofNat r.1.toNat ≠ header then
          throw (.headerMismatch header (UInt32.ofNat r.1.toNat))
        else pure { slices := [r.2] } : Run Reading).run n := by
  have hslot : (p.slot (.checkHeader 0 header) [s] 0).run n = (.ok s, n) := run_slot rfl n
  refine (run_bind_ok hslot).trans ?_
  rcases hread : (Run.read (Slice.loadUint headerBits) s).run n with ⟨e | ⟨word, rest⟩, n'⟩
  · rw [run_bind_error hread, run_bind_error hread]
  · rw [run_bind_ok hread, run_bind_ok hread]
    by_cases hother : UInt32.ofNat word.toNat ≠ header
    · simp only [if_pos hother]
      rfl
    · simp only [if_neg hother]
      rfl

/-- A parser that has succeeded has found its header. -/
theorem startsWith_of_loadRecord (hp : set.lookup true name = .ok p)
    (hinstrs : p.instrs = .checkHeader 0 header :: is) {s : Slice} {n n' : Nat} {r : Value × Slice}
    (h : (loadRecord set limits depth name s).run n = (.ok r, n')) :
    s.StartsWith header ∧ 0 < depth ∧ 0 < n := by
  cases depth with
  | zero =>
    have hnone : Ends (loadRecord set limits 0 name s) n (fun _ _ => False) fun e _ => Rejects e :=
      ends_loadRecord_zero hp s n
    exact (hnone.ok_of_run h).elim
  | succ depth =>
    rw [run_loadRecord_succ hp, hinstrs] at h
    obtain ⟨_, _, hall, -⟩ := exists_of_run_bind h
    obtain ⟨_, _, hone, -⟩ := exists_of_run_bind hall
    obtain ⟨_, m, hstep, hcheck⟩ := exists_of_run_bind hone
    have hn := (ends_step limits n).ok_of_run hstep
    rw [run_checkHeader] at hcheck
    obtain ⟨⟨word, rest⟩, _, hread, hsame⟩ := exists_of_run_bind hcheck
    refine ⟨⟨word, rest, ?_, ?_⟩, Nat.succ_pos depth, by omega⟩
    · unfold Run.read at hread
      split at hread
      · next hword =>
        cases hread
        exact hword
      · cases hread
    · by_contra hother
      rw [if_pos hother] at hsame
      cases hsame

/-- A parser that can start refuses a slice with another header. -/
theorem run_loadRecord_mismatch (hp : set.lookup true name = .ok p)
    (hinstrs : p.instrs = .checkHeader 0 header :: is) {s : Slice} {found : UInt32}
    (hs : s.StartsWith found) (hother : found ≠ header) {n : Nat} (hdepth : 0 < depth)
    (hn : 0 < n) :
    ((loadRecord set limits depth name s).run n).1 = .error (.headerMismatch header found) := by
  obtain ⟨depth, rfl⟩ := Nat.exists_eq_add_of_le' hdepth
  obtain ⟨n, rfl⟩ := Nat.exists_eq_add_of_le' hn
  obtain ⟨word, rest, hword, rfl⟩ := hs
  have hcheck : (loadInstr (loadRecord set limits depth) p { slices := [s] }
      (.checkHeader 0 header)).run n =
        (.error (.headerMismatch header (UInt32.ofNat word.toNat)), n) := by
    rw [run_checkHeader, run_bind_ok (Run.run_read hword n), if_pos hother]
    rfl
  have hall : (loadAll (loadRecord set limits depth) limits p p.instrs { slices := [s] }).run
      (n + 1) = (.error (.headerMismatch header (UInt32.ofNat word.toNat)), n) := by
    rw [hinstrs]
    exact run_bind_error ((run_bind_ok (run_step limits n)).trans hcheck)
  rw [run_loadRecord_succ hp, run_bind_error hall]

end

/-- What one program writes, a parser of another header refuses. -/
theorem Stores.loadFrom_mismatch {m : Machine} {shape : String → Option Shape} {valid : Prop}
    {writer own other : String} {declared : Shape} {size : CellSize} {p q : Program}
    {found expected : UInt32} {is js : List Instr}
    (h : m.Stores shape valid writer own declared size) (hbits : size.bits ≤ maxCellBits)
    (hrefs : size.refs ≤ maxCellRefs) (hp : m.programs.lookup true own = .ok p)
    (hpi : p.instrs = .checkHeader 0 found :: is) (hq : m.programs.lookup true other = .ok q)
    (hqi : q.instrs = .checkHeader 0 expected :: js) (hne : found ≠ expected) {v : Value} {c : Cell}
    (hc : m.storeAfter [] writer v = .ok c) :
    m.loadFrom other c.toSlice = .error (.headerMismatch expected found) := by
  obtain ⟨-, s, hs, hback⟩ := (h.storeAfter [] (by simpa using hbits) hrefs v).2 c hc
  obtain rfl : c.toSlice = s := hs
  rw [loadFrom_eq] at hback
  obtain ⟨r, hr, -⟩ := map_eq_ok hback
  -- its own parser has found its header, and had a step and a level to do so
  obtain ⟨hstarts, hdepth, hsteps⟩ := startsWith_of_loadRecord hp hpi (Prod.ext hr rfl)
  rw [loadFrom_eq, run_loadRecord_mismatch hq hqi hstarts hne hdepth hsteps]
  rfl

end Machine

/-! ## Compiled stores -/

/-- A contract with parameters, and two messages, one with a header that is given. -/
def sampleBank : TypeStore where
  types :=
    [{ name := "Tag", kind := .struct
       fields := [{ name := "mark", type := .bits 12 }, { name := "open", type := .bool }] },
     { name := "Put", kind := .message, header := some (.int 7)
       fields :=
         [{ name := "amount", type := .int .coins }, { name := "tag", type := .record "Tag" },
           { name := "note", type := .string }, { name := "count", type := .int (.uint 8) },
           { name := "last", type := .bool }] },
     { name := "Drop", kind := .message
       fields := [{ name := "tag", type := .record "Tag" }] },
     { name := "Bank", kind := .contract
       fields :=
         [{ name := "owner", type := .address }, { name := "total", type := .int .coins },
           { name := "tag", type := .record "Tag" }]
       init := some
         [{ name := "seed", type := .int (.uint 32) }, { name := "tag", type := .record "Tag" }] }]
  types_distinct := by decide

theorem exists_sampleBank : ∃ art, sampleBank.compile { entry := "Bank" } = .ok art :=
  exists_of_isOk (by decide +kernel)

theorem plainNames_sampleBank : sampleBank.PlainNames := ⟨by decide, by decide⟩

theorem distinctFields_sampleBank : sampleBank.DistinctFields := by
  unfold TypeStore.DistinctFields
  decide

theorem namedFormats_sampleBank : sampleBank.NamedFormats := by
  have hall : ∀ t ∈ sampleBank.types, ∀ f ∈ t.fields, ∀ format ∈ f.type.formats,
      format = .coins ∨ format = .uint 8 := by decide
  intro t ht f hf format hformat
  rcases hall t ht f hf format hformat with rfl | rfl
  · exact ⟨"coins", by decide⟩
  · exact ⟨"uint8", by decide⟩

namespace Artifact

variable {s : TypeStore} {o : CompileOptions} {tools : Toolchain} {art : Artifact}

/-! ### Other messages -/

/--
Two messages have different headers in the analysed store. Whatever is written as the one, both
parsers of the other one find its header there, not the one that they expect.
-/
theorem parse_otherMessage (hart : s.compile o tools = .ok art) (hplain : s.PlainNames)
    (hdistinct : s.DistinctFields) {name other : String} {t u : RecordType}
    (ht : s.get? name = some t) (hmessage : t.isMessage = true) (hu : s.get? other = some u)
    (hmessage' : u.isMessage = true) (hne : name ≠ other) :
    ∃ a found expected, s.analyze tools.evaluator = .ok a
      ∧ a.header? name = some found ∧ a.header? other = some expected ∧ found ≠ expected
      ∧ ∀ limits v c, (art.machine limits).serialize name v = .ok c →
        (art.machine limits).parse other c = .error (.headerMismatch expected found)
          ∧ (art.machine limits).parseBounced other c = .error (.headerMismatch expected found) := by
  obtain ⟨a, link, hanalyze, ha, hprograms, linked⟩ := exists_analysis hart hplain hdistinct
  obtain ⟨t', l, hshape, own⟩ := ha.message hplain hdistinct link ht hmessage
  obtain ⟨u', l', -, others⟩ := ha.message hplain hdistinct link hu hmessage'
  have htmem := TypeStore.mem_of_get? own.type
  have humem := TypeStore.mem_of_get? others.type
  obtain ⟨found, hfound⟩ := ha.headers.present t' htmem own.isMessage
  obtain ⟨expected, hexpected⟩ := ha.headers.present u' humem others.isMessage
  have hdiffer : found ≠ expected := by
    rintro rfl
    have hsame := ha.headers.distinct t' htmem u' humem own.isMessage others.isMessage
      (hfound.trans hexpected.symm)
    rw [← TypeStore.name_of_get? own.type, ← TypeStore.name_of_get? others.type, hsame] at hne
    exact hne rfl
  refine ⟨a, found, expected, hanalyze, ?_, ?_, hdiffer, fun limits v c hc => ?_⟩
  · rw [Analysis.header?, own.type, Option.bind_some, hfound]
  · rw [Analysis.header?, others.type, Option.bind_some, hexpected]
  have hlookup := own.code.parser .withHeader nofun
  have hother := others.code.parser .withHeader nofun
  have hbounced := others.bounced
  rw [← hprograms] at hlookup hother hbounced
  have hname : s.LaidOut name := .of_message ht hmessage
  obtain ⟨hbits, hrefs⟩ := linked.first_le name
  have hstores : (art.machine limits).Stores s.shape False (ProcName.store name)
      (ProcName.load name) (Field.shape t'.fields) (a.firstSize name) :=
    linked.stores nofun hname hshape
  obtain ⟨is, his⟩ := Layout.instrs_parser_cons (own.header.trans hfound) .withHeader nofun
  obtain ⟨js, hjs⟩ :=
    Layout.instrs_parser_cons (others.header.trans hexpected) .withHeader nofun
  have hheader : (l'.bounced (.bounced other) u'.fields).header = some expected :=
    others.header.trans hexpected
  obtain ⟨ks, hks⟩ := Layout.instrs_parser_cons hheader .bounced nofun
  constructor
  · exact hstores.loadFrom_mismatch hbits hrefs hlookup his hother hjs hdiffer hc
  · exact hstores.loadFrom_mismatch hbits hrefs hlookup his hbounced hks hdiffer hc

/-- A deposit, its fields out of order, with more bits than the mark of a tag has. -/
def samplePut : List (String × Value) :=
  [("tag", .record [("open", .bool true), ("mark", .bits [0xab, 0xcd])]), ("amount", .int 1000),
    ("last", .bool true), ("count", .int 3), ("note", .string "fee")]

theorem exists_serialize_samplePut {art : Artifact}
    (hart : sampleBank.compile { entry := "Bank" } = .ok art) :
    ∃ c, (art.machine {}).serialize "Put" (.record samplePut) = .ok c := by
  have hrun : (sampleBank.compile { entry := "Bank" }).toOption.any (fun art =>
      ((art.machine {}).serialize "Put" (.record samplePut)).isOk) = true := by decide +kernel
  rw [hart] at hrun
  exact exists_of_isOk hrun

/-- The given header is found where the one of the schema is expected. -/
theorem parse_otherMessage_sample : ∃ art c expected,
    sampleBank.compile { entry := "Bank" } = .ok art
      ∧ (art.machine {}).serialize "Put" (.record samplePut) = .ok c ∧ 7 ≠ expected
      ∧ (art.machine {}).parse "Drop" c = .error (.headerMismatch expected 7)
      ∧ (art.machine {}).parseBounced "Drop" c = .error (.headerMismatch expected 7) := by
  have hheader : (sampleBank.analyze Expr.evaluate).toOption.all
      (fun a => a.header? "Put" = some 7) = true := by decide +kernel
  obtain ⟨art, hart⟩ := exists_sampleBank
  obtain ⟨c, hc⟩ := exists_serialize_samplePut hart
  obtain ⟨t, ht, hmessage⟩ : ∃ t, sampleBank.get? "Put" = some t ∧ t.isMessage = true :=
    ⟨_, rfl, rfl⟩
  obtain ⟨u, hu, hmessage'⟩ : ∃ u, sampleBank.get? "Drop" = some u ∧ u.isMessage = true :=
    ⟨_, rfl, rfl⟩
  obtain ⟨a, found, expected, ha, hfound, -, hne, hrefuse⟩ :=
    parse_otherMessage hart plainNames_sampleBank distinctFields_sampleBank ht hmessage hu
      hmessage' (by decide)
  rw [show sampleBank.analyze Expr.evaluate = .ok a from ha] at hheader
  obtain rfl : found = 7 := Option.some.inj (hfound.symm.trans (of_decide_eq_true hheader))
  exact ⟨art, c, expected, hart, hc, hne, hrefuse {} _ c hc⟩

end Artifact
end CellPack
