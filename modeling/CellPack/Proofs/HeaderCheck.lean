import Mathlib
import CellPack.Proofs.FailedLoads
import CellPack.Proofs.Framing
import CellPack.Proofs.Limits
import CellPack.Proofs.Messages
/-!
# The check of the header

The parser of a record type that looks for a header is a check of the header and then the parser
that looks for none; of a type without a header, the two are the same (`Artifact.load_checked`).
-/

namespace CellPack

open Step

/-! ## Errors without numbers -/

/-- The error without the number of steps in it. -/
def RuntimeError.unnumbered : RuntimeError → RuntimeError
  | outOfSteps _ => outOfSteps 0
  | e => e

theorem RuntimeError.unnumbered_eq {e : RuntimeError} (h : e.isOutOfSteps = true) :
    e.unnumbered = .outOfSteps 0 := by
  cases e with
  | outOfSteps n => rfl
  | _ => cases h

/--
Two loads end alike: with the same value and the same slice left, or with the same error but for
the number of steps in it.
-/
def Machine.EndsAlike : Except RuntimeError Value × Slice → Except RuntimeError Value × Slice → Prop
  | (.ok v, s), (.ok v', s') => v = v' ∧ s = s'
  | (.error e, _), (.error e', _) => e.unnumbered = e'.unnumbered
  | _, _ => False

/-- Two runs that end alike unless one of them has no steps left end alike. -/
theorem Run.Matches.unnumbered_eq {α : Type} {x y : Run α}
    (h : Matches RuntimeError.isOutOfSteps 0 x y) (h' : Matches RuntimeError.isOutOfSteps 0 y x)
    (n : Nat) :
    (x.run n).1.mapError RuntimeError.unnumbered = (y.run n).1.mapError RuntimeError.unnumbered := by
  have hx := h n
  have hy := h' n
  rw [Nat.add_zero] at hx hy
  generalize x.run n = r at hx hy
  generalize y.run n = r' at hx hy
  cases hx with
  | error _ => rfl
  | ok hsame =>
    rw [hsame.1]
  | stop hstop =>
    cases hy with
    | error _ => rfl
    | stop hstop' =>
      exact congrArg Except.error ((RuntimeError.unnumbered_eq hstop).trans
        (RuntimeError.unnumbered_eq hstop').symm)

namespace Machine

/-! ## Programs of the same instructions -/

/-- The instruction reads from one of so many slices, or opens the next one. -/
def Finds (count : Nat) : Instr → Prop
  | .checkHeader cell _ => cell < count
  | .openCell parent child => parent < count ∧ child = count
  | .load cell _ _ => cell < count
  | .setDefault _ _ => True
  | _ => False

/-- From so many slices, all instructions find the ones that they read from. -/
def Scoped : Nat → List Instr → Prop
  | _, [] => True
  | count, i :: is => Finds count i ∧ Scoped (count + i.opens) is

theorem scoped_loads {count index : Nat} (hindex : index < count) {is : List Instr}
    (h : Scoped count is) (pls : List Placement) :
    Scoped count ((pls.map fun pl => Instr.load index pl.field pl.op) ++ is) := by
  induction pls with
  | nil => exact h
  | cons pl pls ih => exact ⟨hindex, ih⟩

/-- The instructions for the cells of a layout find their slices, one more with each cell. -/
theorem scoped_loadCells (cells : List LayoutCell) : ∀ index,
    Scoped (index + 1) (Layout.loadCells index cells) := by
  induction cells with
  | nil => exact fun _ => trivial
  | cons c rest ih =>
    intro index
    unfold Layout.loadCells
    split
    · have hnone : Scoped (index + 1) [] := trivial
      have hloads := scoped_loads (Nat.lt_succ_self index) hnone c.placements
      rwa [List.append_nil] at hloads
    · have hopen : Scoped (index + 1) (.openCell index (index + 1) ::
          Layout.loadCells (index + 1) rest) := ⟨⟨Nat.lt_succ_self index, rfl⟩, ih (index + 1)⟩
      exact scoped_loads (Nat.lt_succ_self index) hopen c.placements

variable {call : String → Slice → Run (Value × Slice)} {limits : Limits} {p q : Program}

theorem slot_swap (p q : Program) {α : Type} {i : Instr} {items : List α} {index : Nat}
    (h : index < items.length) : p.slot i items index = q.slot i items index := by
  unfold Program.slot
  rw [List.getElem?_eq_getElem h]

/-- An instruction that finds its slice does not depend on the program. -/
theorem loadInstr_swap (p q : Program) {r : Reading} {i : Instr} (h : Finds r.slices.length i) :
    loadInstr call p r i = loadInstr call q r i := by
  cases i with
  | checkHeader cell expected => exact congrArg (· >>= _) (slot_swap p q h)
  | openCell parent child =>
    obtain ⟨hparent, hchild⟩ := h
    simp only [loadInstr, if_neg (not_not.2 hchild), slot_swap p q hparent]
  | load cell field op => exact congrArg (· >>= _) (slot_swap p q h)
  | setDefault field value => rfl
  | _ => exact h.elim

/-- So neither do instructions that all find theirs. -/
theorem run_loadAll_swap (p q : Program) {is : List Instr} : ∀ {r : Reading},
    Scoped r.slices.length is → ∀ n,
      (loadAll call limits p is r).run n = (loadAll call limits q is r).run n := by
  induction is with
  | nil => exact fun _ _ => rfl
  | cons i is ih =>
    rintro r ⟨hi, his⟩ n
    have hsame : (Run.step limits >>= fun _ => loadInstr call p r i) =
        (Run.step limits >>= fun _ => loadInstr call q r i) := by rw [loadInstr_swap p q hi]
    change ((Run.step limits >>= fun _ => loadInstr call p r i) >>= fun r =>
        loadAll call limits p is r).run n =
      ((Run.step limits >>= fun _ => loadInstr call q r i) >>= fun r =>
        loadAll call limits q is r).run n
    rw [← hsame]
    rcases hone : (Run.step limits >>= fun _ => loadInstr call p r i).run n with ⟨e | r', n'⟩
    · rw [run_bind_error hone, run_bind_error hone]
    · obtain ⟨-, hslices⟩ := (ends_counted r i n).ok_of_run hone
      rw [run_bind_ok hone, run_bind_ok hone]
      exact ih (hslices ▸ his) n'

/-! ## A check in front -/

variable {set : ProgramSet} {depth : Nat} {name name' : String} {header : UInt32}

/-- Programs of the same instructions for the same record do the same. -/
theorem run_loadRecord_swap (hp : set.lookup true name = .ok p) (hq : set.lookup true name' = .ok q)
    (htype : p.typeName = q.typeName) (hfields : p.fields = q.fields) (hinstrs : p.instrs = q.instrs)
    (hscoped : Scoped 1 q.instrs) (s : Slice) (n : Nat) :
    (loadRecord set limits depth name s).run n = (loadRecord set limits depth name' s).run n := by
  cases depth with
  | zero => rw [run_loadRecord_zero hp, run_loadRecord_zero hq]
  | succ depth =>
    have hfinish : finish p s = finish q s := by
      unfold finish toRecord
      rw [htype, hfields]
    rw [run_loadRecord_succ hp, run_loadRecord_succ hq, hinstrs, hfinish, run_bind, run_bind,
      run_loadAll_swap p q (r := { slices := [s] }) hscoped]

/-- A program that starts with a check checks the header, and then does what it does without it. -/
theorem run_loadRecord_checked (hp : set.lookup true name = .ok p)
    (hq : set.lookup true name' = .ok q) (htype : p.typeName = q.typeName)
    (hfields : p.fields = q.fields) (hinstrs : p.instrs = .checkHeader 0 header :: q.instrs)
    (hscoped : Scoped 1 q.instrs) (s : Slice) (n : Nat) :
    (loadRecord set limits (depth + 1) name s).run (n + 1) =
      (Run.read (Slice.loadUint headerBits) s >>= fun r =>
        if UInt32.ofNat r.1.toNat ≠ header then
          throw (.headerMismatch header (UInt32.ofNat r.1.toNat))
        else loadRecord set limits (depth + 1) name' r.2 : Run (Value × Slice)).run n := by
  have hcheck : (Run.step limits >>= fun _ => loadInstr (loadRecord set limits depth) p
      { slices := [s] } (.checkHeader 0 header)).run (n + 1) =
        (Run.read (Slice.loadUint headerBits) s >>= fun r =>
          if UInt32.ofNat r.1.toNat ≠ header then
            throw (.headerMismatch header (UInt32.ofNat r.1.toNat))
          else pure { slices := [r.2] } : Run Reading).run n := by
    rw [run_bind_ok (run_step limits n), run_checkHeader]
  rw [run_loadRecord_succ hp, hinstrs]
  change (((Run.step limits >>= fun _ => loadInstr (loadRecord set limits depth) p
      { slices := [s] } (.checkHeader 0 header)) >>= fun r =>
    loadAll (loadRecord set limits depth) limits p q.instrs r) >>= finish p s).run (n + 1) = _
  rw [bind_assoc, run_bind, hcheck, ← run_bind, bind_assoc]
  rcases hread : (Run.read (Slice.loadUint headerBits) s).run n with ⟨e | ⟨word, rest⟩, n'⟩
  · rw [run_bind_error hread, run_bind_error hread]
  rw [run_bind_ok hread, run_bind_ok hread]
  by_cases hother : UInt32.ofNat word.toNat ≠ header
  · simp only [if_pos hother]
    rfl
  simp only [if_neg hother, pure_bind]
  rw [run_loadRecord_succ hq, run_bind, run_bind,
    run_loadAll_swap p q (r := { slices := [rest] }) hscoped]
  rcases hrest : (loadAll (loadRecord set limits depth) limits q q.instrs
    { slices := [rest] }).run n' with ⟨e | r, m⟩
  · rfl
  · -- the first slice is still there
    obtain ⟨-, hslices⟩ := (ends_loadAll q.instrs { slices := [rest] } n').ok_of_run hrest
    have hfinish : finish p s r = finish q rest r := by
      unfold finish toRecord
      rw [htype, hfields]
      rcases hr : r.slices with _ | ⟨first, behind⟩
      · rw [hr] at hslices
        cases hslices
      · rfl
    exact congrArg (fun x : Run (Value × Slice) => x.run m) hfinish

/-! ## Ends of loads -/

/-- How a load ends whose program ends so: a failed one leaves the slice as it was. -/
def settled (s : Slice) : Except RuntimeError (Value × Slice) → Except RuntimeError Value × Slice
  | .ok (v, rest) => (.ok v, rest)
  | .error e => (.error e, s)

theorem endsAlike_settled {r r' : Except RuntimeError (Value × Slice)} (s s' : Slice)
    (h : r.mapError RuntimeError.unnumbered = r'.mapError RuntimeError.unnumbered) :
    EndsAlike (settled s r) (settled s' r') := by
  cases r with
  | error e =>
    cases r' with
    | error e' => exact Except.error.inj h
    | ok _ => cases h
  | ok r =>
    cases r' with
    | error e' => cases h
    | ok r' =>
      obtain rfl : r = r' := Except.ok.inj h
      exact ⟨rfl, rfl⟩

/-- Fewer steps in the limits only change the number in an error. -/
theorem unnumbered_loadRecord (set : ProgramSet) {limits limits' : Limits}
    (h : limits.depth = limits'.depth) (depth : Nat) (name : String) (s : Slice) (n : Nat) :
    ((loadRecord set limits depth name s).run n).1.mapError RuntimeError.unnumbered =
      ((loadRecord set limits' depth name s).run n).1.mapError RuntimeError.unnumbered :=
  Run.Matches.unnumbered_eq (matches_loadRecord rfl (.inl ⟨rfl, h⟩) name s)
    (matches_loadRecord rfl (.inl ⟨rfl, h.symm⟩) name s) n

/-! ## Headers in slices -/

theorem run_loadUint_header (s : Slice) :
    (Slice.loadUint headerBits).run s =
      if headerBits > s.bits.length then (.error (.underflow headerBits s.bits.length), s)
      else (.ok (BitVec.ofNat 128 (Bits.toNat (s.bits.take headerBits))),
        s.advance ⟨headerBits, 0⟩) := by
  unfold Slice.loadUint
  rw [run_bind, Slice.run_takeBits]
  split
  · rfl
  · next hbits =>
    have hlength : (s.bits.take headerBits).length - 128 = 0 := by
      rw [List.length_take]
      simp only [headerBits]
      omega
    have hraw : (ExceptT.bindCont (fun raw : List Bool => (do
        let split := raw.length - 128
        if (raw.take split).any id then throw (.valueOutOfRange headerBits)
        return BitVec.ofNat 128 (Bits.toNat (raw.drop split)) : Load Word))
        (.ok (s.bits.take headerBits)) { s with bits := s.bits.drop headerBits }) =
          (.ok (BitVec.ofNat 128 (Bits.toNat (s.bits.take headerBits))),
            s.advance ⟨headerBits, 0⟩) := by
      simp only [ExceptT.bindCont, hlength]
      rfl
    exact hraw

/-- The number that a slice starts with is read as its header. -/
theorem run_readHeader {s : Slice} {found : UInt32} (hbits : headerBits ≤ s.bits.length)
    (hfound : Bits.toNat (s.bits.take headerBits) = found.toNat) (n : Nat) :
    (Run.read (Slice.loadUint headerBits) s).run n =
      (.ok (BitVec.ofNat 128 found.toNat, s.advance ⟨headerBits, 0⟩), n) := by
  refine Run.run_read ?_ n
  rw [run_loadUint_header, if_neg (Nat.not_lt.2 hbits), hfound]

/--
A load checks a header: a slice without so many bits and one with another number are refused, and
one with the header is loaded as the other load does behind it.
-/
structure ChecksHeader (header : UInt32)
    (whole behind : Slice → Except RuntimeError Value × Slice) : Prop where
  short : ∀ s : Slice, s.bits.length < headerBits →
    whole s = (.error (.cell (.underflow headerBits s.bits.length)), s)
  other : ∀ (s : Slice) (found : UInt32), headerBits ≤ s.bits.length →
    Bits.toNat (s.bits.take headerBits) = found.toNat → found ≠ header →
    whole s = (.error (.headerMismatch header found), s)
  same : ∀ s : Slice, headerBits ≤ s.bits.length →
    Bits.toNat (s.bits.take headerBits) = header.toNat →
    EndsAlike (whole s) (behind (s.advance ⟨headerBits, 0⟩))

end Machine

/-! ## Compiled stores -/

namespace Artifact

variable {s : TypeStore} {o : CompileOptions} {tools : Toolchain} {art : Artifact}

/-- A load of a compiled store ends as its program does, and takes nothing if that fails. -/
theorem run_load_eq (hart : s.compile o tools = .ok art) (limits : Limits) (name : String)
    (sl : Slice) :
    ((art.machine limits).load name).run sl = Machine.settled sl
      ((Machine.loadRecord art.programs limits limits.depth name sl).run limits.steps).1 := by
  have hvalue := (art.machine limits).loadFrom_eq name sl
  rw [Machine.loadFrom] at hvalue
  change _ = ((Machine.loadRecord art.programs limits limits.depth name sl).run limits.steps).1.map _
    at hvalue
  cases hr : ((Machine.loadRecord art.programs limits limits.depth name sl).run limits.steps).1 with
  | ok r =>
    obtain ⟨v, rest⟩ := r
    exact Machine.run_load_ok.2 hr
  | error e =>
    rw [hr] at hvalue
    exact Prod.ext hvalue (slice_of_load_error hart (Prod.ext hvalue rfl))

/-- A parser of a compiled store that starts with a check checks the header. -/
theorem checksHeader (hart : s.compile o tools = .ok art) {name name' : String} {p q : Program}
    {header : UInt32} (hp : art.programs.lookup true name = .ok p)
    (hq : art.programs.lookup true name' = .ok q) (htype : p.typeName = q.typeName)
    (hfields : p.fields = q.fields) (hinstrs : p.instrs = .checkHeader 0 header :: q.instrs)
    (hscoped : Machine.Scoped 1 q.instrs) (steps depth : Nat) :
    Machine.ChecksHeader header ((art.machine ⟨steps + 1, depth + 1⟩).load name).run
      ((art.machine ⟨steps, depth + 1⟩).load name').run := by
  have hload (sl : Slice) := run_load_eq hart ⟨steps + 1, depth + 1⟩ name sl
  have hrun (sl : Slice) : (Machine.loadRecord art.programs ⟨steps + 1, depth + 1⟩ (depth + 1) name
      sl).run (steps + 1) = _ :=
    Machine.run_loadRecord_checked hp hq htype hfields hinstrs hscoped sl steps
  refine ⟨fun sl hshort => ?_, fun sl found hbits hfound hother => ?_, fun sl hbits hheader => ?_⟩
  · have hread : (Run.read (Slice.loadUint headerBits) sl).run steps =
        (.error (.cell (.underflow headerBits sl.bits.length)), steps) := by
      unfold Run.read
      rw [Machine.run_loadUint_header, if_pos hshort]
      rfl
    rw [hload, hrun, run_bind_error hread]
    rfl
  · have hread := Machine.run_readHeader hbits hfound steps
    have hword : UInt32.ofNat (BitVec.ofNat 128 found.toNat).toNat ≠ header := by
      rwa [Machine.header_of_word]
    rw [hload, hrun, run_bind_ok hread, if_pos hword, Machine.header_of_word]
    rfl
  · have hread := Machine.run_readHeader hbits hheader steps
    have hword : ¬UInt32.ofNat (BitVec.ofNat 128 header.toNat).toNat ≠ header := by
      rw [Machine.header_of_word]
      exact not_not.2 rfl
    rw [hload, hrun, run_bind_ok hread, if_neg hword, run_load_eq hart ⟨steps, depth + 1⟩]
    have hlevel : (⟨steps + 1, depth + 1⟩ : Limits).depth = (⟨steps, depth + 1⟩ : Limits).depth := rfl
    exact Machine.endsAlike_settled sl _
      (Machine.unnumbered_loadRecord art.programs hlevel (depth + 1) name' _ steps)

/-- Parsers of a record type are those of its layout, which has the header that the type has. -/
theorem exists_parsers (hart : s.compile o tools = .ok art) (hplain : s.PlainNames) {name : String}
    {t : RecordType} (ht : s.get? name = some t) (hkind : t.kind.hasLayout = true) :
    ∃ (a : Analysis) (l : Layout), s.analyze tools.evaluator = .ok a
      ∧ l.omitted = []
      ∧ (t.isMessage = false → l.header = none)
      ∧ (t.isMessage = true → ∃ header, a.header? name = some header ∧ l.header = some header)
      ∧ ∀ mode : ParserMode, mode ≠ .bounced →
        art.programs.lookup true (mode.procedure name) = .ok (l.parser mode) := by
  obtain ⟨a, link, hanalyze, hprograms⟩ := TypeStore.compile_ok hart
  have ha := TypeStore.analyze_ok hanalyze
  obtain ⟨u, l, hu, rfl, hlayout, -, hl, hfilled⟩ := ha.exists_layout ⟨t, ht, hkind⟩
  have hmessage : u.isMessage = t.isMessage := by
    simp only [RecordType.isMessage, ha.kind_eq ht hu]
  have hheader := hfilled.header_eq
  rw [hmessage] at hheader
  refine ⟨a, l, hanalyze, hfilled.omitted_eq, fun h => ?_, fun h => ?_, fun mode hmode => ?_⟩
  · rw [hheader, h, if_neg Bool.false_ne_true]
  · obtain ⟨header, hvalue⟩ := ha.headers.present u hu (hmessage.trans h)
    refine ⟨header, ?_, ?_⟩
    · rw [Analysis.header?, TypeStore.get?_of_mem hu, Option.bind_some, hvalue]
    · rw [hheader, if_pos h, hvalue]
  · rw [hprograms]
    exact Analysis.lookup_load ha.identified (ha.plainNames hplain) (ha.ordered u hu) hlayout hl link
      hmode

/--
The parser of a message that looks for its header checks that header, and then does what the other
parser does with a step less. Both parsers of a struct or a contract do the same.
-/
theorem load_checked (hart : s.compile o tools = .ok art) (hplain : s.PlainNames) {name : String}
    {t : RecordType} (ht : s.get? name = some t) (hkind : t.kind.hasLayout = true) :
    (t.isMessage = true → ∃ a header, s.analyze tools.evaluator = .ok a
        ∧ a.header? name = some header
        ∧ ∀ steps depth, Machine.ChecksHeader header
          ((art.machine ⟨steps + 1, depth + 1⟩).load (ProcName.load name)).run
          ((art.machine ⟨steps, depth + 1⟩).load (ProcName.loadNoHeader name)).run)
      ∧ (t.isMessage = false → ∀ limits sl,
        ((art.machine limits).load (ProcName.load name)).run sl =
          ((art.machine limits).load (ProcName.loadNoHeader name)).run sl) := by
  obtain ⟨a, l, hanalyze, homitted, hnone, hsome, hlookup⟩ := exists_parsers hart hplain ht hkind
  have hwhole := hlookup .withHeader nofun
  have hbehind := hlookup .noHeader nofun
  have hinstrs : (l.parser .noHeader).instrs = Layout.loadCells 0 l.cells :=
    l.instrs_parser homitted
  have hscoped : Machine.Scoped 1 (l.parser .noHeader).instrs := by
    rw [hinstrs]
    exact Machine.scoped_loadCells l.cells 0
  refine ⟨fun h => ?_, fun h limits sl => ?_⟩
  · obtain ⟨header, hfound, hheader⟩ := hsome h
    have hcheck : (l.parser .withHeader).instrs =
        Instr.checkHeader 0 header :: (l.parser .noHeader).instrs := by
      rw [l.instrs_parser homitted, hinstrs, hheader]
      rfl
    exact ⟨a, header, hanalyze, hfound,
      checksHeader hart hwhole hbehind rfl rfl hcheck hscoped⟩
  · have hsame : (l.parser .withHeader).instrs = (l.parser .noHeader).instrs :=
      (l.instrs_parser_eq homitted fun _ => hnone h).symm
    have hrun : (Machine.loadRecord art.programs limits limits.depth (ProcName.load name) sl).run
        limits.steps = (Machine.loadRecord art.programs limits limits.depth
          (ProcName.loadNoHeader name) sl).run limits.steps :=
      Machine.run_loadRecord_swap hwhole hbehind rfl rfl hsame hscoped sl limits.steps
    rw [run_load_eq hart, run_load_eq hart]
    exact congrArg (fun r => Machine.settled sl r.1) hrun

/-- A deposit without a header, with a wrong one, and the given header in front of nothing. -/
theorem load_checked_sample : ∃ art, sampleBank.compile { entry := "Bank" } = .ok art
    ∧ ((art.machine {}).load (ProcName.load "Put")).run ⟨[true, true], []⟩ =
      (.error (.cell (.underflow 32 2)), ⟨[true, true], []⟩)
    ∧ ((art.machine {}).load (ProcName.load "Put")).run ⟨List.replicate 40 false, []⟩ =
      (.error (.headerMismatch 7 0), ⟨List.replicate 40 false, []⟩)
    ∧ Machine.EndsAlike
      (((art.machine {}).load (ProcName.load "Put")).run ⟨Bits.ofNat 32 7, []⟩)
      (((art.machine ⟨999999, 256⟩).load (ProcName.loadNoHeader "Put")).run ⟨[], []⟩) := by
  have hheader : (sampleBank.analyze Expr.evaluate).toOption.all
      (fun a => a.header? "Put" = some 7) = true := by decide +kernel
  obtain ⟨art, hart⟩ := exists_sampleBank
  obtain ⟨t, ht, hmessage, hkind⟩ : ∃ t, sampleBank.get? "Put" = some t ∧ t.isMessage = true
      ∧ t.kind.hasLayout = true := ⟨_, rfl, rfl, rfl⟩
  obtain ⟨a, header, ha, hfound, hchecks⟩ :=
    (load_checked hart plainNames_sampleBank ht hkind).1 hmessage
  rw [show sampleBank.analyze Expr.evaluate = .ok a from ha] at hheader
  obtain rfl : header = 7 := Option.some.inj (hfound.symm.trans (of_decide_eq_true hheader))
  have hput := hchecks 999999 255
  refine ⟨art, hart, hput.short _ (by decide), ?_, ?_⟩
  · exact hput.other ⟨List.replicate 40 false, []⟩ 0 (by decide) (by decide) (by decide)
  · exact hput.same ⟨Bits.ofNat 32 7, []⟩ (by decide) (by decide)

end Artifact
end CellPack
