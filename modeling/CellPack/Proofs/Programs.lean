import Mathlib
import CellPack.Layout.Programs
import CellPack.Proofs.Fields
/-!
# Writing and reading back the cells of a layout

The instructions of a serializer write the cells of a layout into each other. The instructions of
the parser read them back field by field, in no more steps (`storesAll_cells`).
-/

namespace CellPack.Machine

open Step

/-- Executes instructions of a serializer. -/
def storeAll (store : String → Builder → Value → Run Builder) (limits : Limits) (p : Program)
    (v : Value) (is : List Instr) (builders : List Builder) : Run (List Builder) :=
  is.foldlM (fun builders i => do
    Run.step limits
    storeInstr store p v builders i) builders

/-- Executes instructions of a parser. -/
def loadAll (load : String → Slice → Run (Value × Slice)) (limits : Limits) (p : Program)
    (is : List Instr) (r : Reading) : Run Reading :=
  is.foldlM (fun r i => do
    Run.step limits
    loadInstr load p r i) r

variable {shape : String → Option Shape} {first : String → CellSize} {valid : Prop}
  {store : String → Builder → Value → Run Builder} {load : String → Slice → Run (Value × Slice)}
  {limits : Limits} {p : Program} {v : Value} {declared : Shape}

theorem storeAll_append (is is' : List Instr) (builders : List Builder) :
    storeAll store limits p v (is ++ is') builders =
      storeAll store limits p v is builders >>= storeAll store limits p v is' := by
  rw [storeAll, List.foldlM_append]
  rfl

theorem loadAll_append (is is' : List Instr) (r : Reading) :
    loadAll load limits p (is ++ is') r =
      loadAll load limits p is r >>= loadAll load limits p is' := by
  rw [loadAll, List.foldlM_append]
  rfl

/-! ## Steps and slots -/

theorem run_step (limits : Limits) (n : Nat) : (Run.step limits).run (n + 1) = (.ok (), n) := rfl

theorem ends_step (limits : Limits) (n : Nat) :
    Ends (Run.step limits) n (fun _ n' => n = n' + 1) fun e _ => e.isLimit = true := by
  cases n with
  | zero => exact (rfl : (RuntimeError.outOfSteps limits.steps).isLimit = true)
  | succ n => exact .of_ok (run_step limits n) rfl

/-- One counted instruction of a serializer. -/
theorem ends_storeAll_counted {i : Instr} {builders : List Builder} {n : Nat}
    {ok : List Builder → Nat → Prop} {bad : RuntimeError → Nat → Prop}
    (hlimit : ∀ e n', e.isLimit = true → bad e n')
    (h : ∀ n', n = n' + 1 → Ends (storeInstr store p v builders i) n' ok bad) :
    Ends (storeAll store limits p v [i] builders) n ok bad := by
  have hone : Ends (Run.step limits >>= fun _ => storeInstr store p v builders i) n ok bad :=
    ((ends_step limits n).mono (fun _ _ h => h) hlimit).bind fun _ n' hn => h n' hn
  exact hone.bind fun builders n' h => ends_pure h

theorem ends_storeAll_one {i : Instr} {builders : List Builder} {n : Nat}
    {ok : List Builder → Nat → Prop} {conforms : Prop}
    (h : ∀ n', n = n' + 1 → Ends (storeInstr store p v builders i) n' ok
      fun e _ => Refuses valid conforms e) :
    Ends (storeAll store limits p v [i] builders) n ok fun e _ => Refuses valid conforms e :=
  ends_storeAll_counted (fun _ _ he => .inl he) h

/-- One counted instruction of a parser. -/
theorem ends_loadAll_counted {i : Instr} {r : Reading} {n : Nat} {ok : Reading → Nat → Prop}
    {bad : RuntimeError → Nat → Prop} (hlimit : ∀ e n', e.isLimit = true → bad e n')
    (h : ∀ n', Ends (loadInstr load p r i) n' ok bad) :
    Ends (loadAll load limits p [i] r) n ok bad := by
  have hone : Ends (Run.step limits >>= fun _ => loadInstr load p r i) n ok bad :=
    ((ends_step limits n).mono (fun _ _ h => h) hlimit).bind fun _ n' _ => h n'
  exact hone.bind fun r n' h => ends_pure h

theorem ends_loadAll_one {i : Instr} {r : Reading} {n : Nat} {ok : Reading → Nat → Prop}
    (h : ∀ n', Ends (loadInstr load p r i) n' ok fun e _ => Rejects e) :
    Ends (loadAll load limits p [i] r) n ok fun e _ => Rejects e :=
  ends_loadAll_counted (fun _ _ he => .inl he) h

theorem run_loadAll_one {i : Instr} {r r' : Reading} {n n' : Nat}
    (h : (loadInstr load p r i).run n = (.ok r', n')) :
    (loadAll load limits p [i] r).run (n + 1) = (.ok r', n') := by
  have hone : (Run.step limits >>= fun _ => loadInstr load p r i).run (n + 1) = (.ok r', n') := by
    rw [run_bind_ok (run_step limits n), h]
  exact (run_bind_ok hone).trans rfl

/-- If the instructions succeed, their builders are as stated. -/
def Leads (store : String → Builder → Value → Run Builder) (limits : Limits) (p : Program)
    (v : Value) (is : List Instr) (builders : List Builder) (post : List Builder → Prop) : Prop :=
  ∀ n, Ends (storeAll store limits p v is builders) n (fun builders' _ => post builders')
    fun _ _ => True

theorem Leads.append {is is' : List Instr} {builders : List Builder}
    {post post' : List Builder → Prop} (h : Leads store limits p v is builders post)
    (h' : ∀ builders', post builders' → Leads store limits p v is' builders' post') :
    Leads store limits p v (is ++ is') builders post' := by
  intro n
  rw [storeAll_append]
  exact (h n).bind fun builders' n' hpost => h' builders' hpost n'

theorem leads_one {i : Instr} {builders : List Builder} {post : List Builder → Prop}
    (h : ∀ n, Ends (storeInstr store p v builders i) n (fun builders' _ => post builders')
      fun _ _ => True) :
    Leads store limits p v [i] builders post :=
  fun _ => ends_storeAll_counted (fun _ _ _ => trivial) fun n' _ => h n'

theorem run_slot {α : Type} {i : Instr} {items : List α} {index : Nat} {a : α}
    (h : items[index]? = some a) (n : Nat) : (p.slot i items index).run n = (.ok a, n) := by
  unfold Program.slot
  rw [h]
  rfl

theorem getElem?_middle {α : Type} {before behind : List α} {a : α} {index : Nat}
    (h : before.length = index) : (before ++ a :: behind)[index]? = some a := by
  subst h
  simp

theorem run_slot_middle {α : Type} (i : Instr) {before : List α} (a : α) (behind : List α)
    {index : Nat} (h : before.length = index) (n : Nat) :
    (p.slot i (before ++ a :: behind) index).run n = (.ok a, n) :=
  run_slot (getElem?_middle h) n

theorem set_middle {α : Type} {before behind : List α} {a b : α} {index : Nat}
    (h : before.length = index) : (before ++ a :: behind).set index b = before ++ b :: behind := by
  subst h
  simp

/-! ## Instructions that are read back -/

/--
The instructions read the piece in front of slice `index`, the last one, in at most `k` steps. They
give the fields and open `opened` more slices.
-/
def ReadsAll (load : String → Slice → Run (Value × Slice)) (limits : Limits) (p : Program)
    (is : List Instr) (index opened : Nat) (e : Builder) (k : Nat)
    (fields : List (String × Value)) : Prop :=
  ∃ used ≤ k, ∀ before rest loaded n, before.length = index → used ≤ n →
    ∃ behind, behind.length = opened ∧
      (loadAll load limits p is ⟨before ++ [e.onto rest], loaded⟩).run n =
        (.ok ⟨before ++ rest :: behind, loaded ++ fields⟩, n - used)

theorem ReadsAll.append {is is' : List Instr} {index opened k k' : Nat} {e e' : Builder}
    {fields fields' : List (String × Value)} (h : ReadsAll load limits p is index 0 e k fields)
    (h' : ReadsAll load limits p is' index opened e' k' fields') :
    ReadsAll load limits p (is ++ is') index opened (e ++ e') (k + k') (fields ++ fields') := by
  obtain ⟨used, hused, hl⟩ := h
  obtain ⟨used', hused', hl'⟩ := h'
  refine ⟨used + used', Nat.add_le_add hused hused', fun before rest loaded n hbefore hn => ?_⟩
  obtain ⟨behind, hbehind, hrun⟩ := hl before (e'.onto rest) loaded n hbefore (by omega)
  obtain rfl := List.eq_nil_of_length_eq_zero hbehind
  obtain ⟨behind', hbehind', hrun'⟩ :=
    hl' before rest (loaded ++ fields) (n - used) hbefore (by omega)
  refine ⟨behind', hbehind', ?_⟩
  rw [Builder.onto_append, loadAll_append, run_bind_ok hrun, hrun', Nat.sub_sub,
    List.append_assoc]

theorem readsAll_nil (index : Nat) : ReadsAll load limits p [] index 0 {} 0 [] := by
  refine ⟨0, le_refl 0, fun before rest loaded n _ _ => ⟨[], rfl, ?_⟩⟩
  rw [List.append_nil, Builder.empty_onto]
  rfl

theorem readsAll_load {field : String} {op : FieldOp} {e : Builder} {k : Nat} {x : Value}
    (h : Run.Reads (loadOp load op) e k x) (index : Nat) :
    ReadsAll load limits p [.load index field op] index 0 e (k + 1) [(field, x)] := by
  obtain ⟨used, hused, hl⟩ := h
  refine ⟨used + 1, by omega, fun before rest loaded n hbefore hn => ⟨[], rfl, ?_⟩⟩
  obtain ⟨n, rfl⟩ := Nat.exists_eq_add_of_le' (Nat.le_of_add_left_le hn)
  rw [Nat.add_sub_add_right]
  have hslot := run_slot_middle (p := p) (.load index field op) (e.onto rest) [] hbefore n
  have hset : (before ++ [e.onto rest]).set index rest = before ++ [rest] := set_middle hbefore
  refine run_loadAll_one ((run_bind_ok hslot).trans ((run_bind_ok (hl rest n (by omega))).trans ?_))
  simp only [hset]
  rfl

/-- A header is kept in the word that it is read as. -/
theorem header_of_word (header : UInt32) :
    UInt32.ofNat (BitVec.ofNat 128 header.toNat).toNat = header := by
  rw [Slice.toNat_length (n := headerBits) (by decide) header.toNat_lt, UInt32.ofNat_toNat]

theorem readsAll_checkHeader (header : UInt32) :
    ReadsAll load limits p [.checkHeader 0 header] 0 0
      (.ofBits (Bits.ofNat headerBits header.toNat)) 1 [] := by
  have hread := Run.reads_read (Slice.reads_loadUint (n := headerBits) (by decide) header.toNat_lt)
  obtain ⟨used, hused, hl⟩ := hread
  obtain rfl : used = 0 := by omega
  refine ⟨1, le_refl 1, fun before rest loaded n hbefore hn => ⟨[], rfl, ?_⟩⟩
  obtain ⟨n, rfl⟩ := Nat.exists_eq_add_of_le' hn
  have hslot := run_slot_middle (p := p) (.checkHeader 0 header)
    ((Builder.ofBits (Bits.ofNat headerBits header.toNat)).onto rest) [] hbefore n
  refine run_loadAll_one ((run_bind_ok hslot).trans ((run_bind_ok (hl rest n (by omega))).trans ?_))
  simp only [header_of_word, ne_eq, not_true_eq_false, if_false, set_middle hbefore]
  rw [List.append_nil]
  rfl

/-- The next cell, with everything in it. -/
theorem readsAll_openCell {is : List Instr} {index opened k : Nat} {e : Builder}
    {fields : List (String × Value)} (h : ReadsAll load limits p is (index + 1) opened e k fields) :
    ReadsAll load limits p (.openCell index (index + 1) :: is) index (opened + 1)
      (.ofRef e.toCell) (k + 1) fields := by
  obtain ⟨used, hused, hl⟩ := h
  refine ⟨used + 1, by omega, fun before rest loaded n hbefore hn => ?_⟩
  obtain ⟨n, rfl⟩ := Nat.exists_eq_add_of_le' (Nat.le_of_add_left_le hn)
  obtain ⟨behind, hbehind, hrun⟩ :=
    hl (before ++ [rest]) ⟨[], []⟩ loaded n (by simp [hbefore]) (by omega)
  refine ⟨⟨[], []⟩ :: behind, by simp [hbehind], ?_⟩
  have hslot := run_slot_middle (p := p) (.openCell index (index + 1))
    ((Builder.ofRef e.toCell).onto rest) [] hbefore n
  have hopen : (loadInstr load p ⟨before ++ [(Builder.ofRef e.toCell).onto rest], loaded⟩
      (.openCell index (index + 1))).run n =
      (.ok ⟨before ++ [rest] ++ [e.onto ⟨[], []⟩], loaded⟩, n) := by
    have hnext : ¬index + 1 ≠ (before ++ [(Builder.ofRef e.toCell).onto rest]).length := by
      simp [hbefore]
    simp only [loadInstr, if_neg hnext]
    refine (run_bind_ok hslot).trans
      ((run_bind_ok (Run.run_read (Slice.reads_loadRef e.toCell rest) n)).trans ?_)
    rw [set_middle hbefore, Builder.toSlice_toCell]
    rfl
  rw [Nat.add_sub_add_right, ← List.singleton_append, loadAll_append,
    run_bind_ok (run_loadAll_one hopen), hrun, List.append_assoc]
  rfl

/-! ## Instructions that write -/

/--
The instructions `is` write to builder `index`, the last one, a piece of at most so many bits and
references, which the instructions `js` read back as the fields; or they refuse the value. Each of
them takes a step, and maybe more.
-/
def StoresAll (valid : Prop) (store : String → Builder → Value → Run Builder)
    (load : String → Slice → Run (Value × Slice)) (limits : Limits) (p q : Program) (v : Value)
    (is js : List Instr) (index opened : Nat) (conforms : Prop) (fields : List (String × Value))
    (bits refs : Nat) : Prop :=
  ∀ (before : List Builder) (b : Builder) (n : Nat), before.length = index →
    b.bits.length + bits ≤ maxCellBits → b.refs.length + refs ≤ maxCellRefs →
    Ends (storeAll store limits p v is (before ++ [b])) n
      (fun builders n' => conforms ∧ ∃ e k behind, builders = before ++ (b ++ e) :: behind
        ∧ behind.length = opened ∧ n = n' + k ∧ is.length ≤ k ∧ e.bits.length ≤ bits
        ∧ e.refs.length ≤ refs ∧ ReadsAll load limits q js index opened e k fields)
      fun err _ => Refuses valid conforms err

section
variable {q : Program} {is is' js js' : List Instr} {index opened : Nat} {conforms conforms' : Prop}
  {fields fields' : List (String × Value)} {bits bits' refs refs' : Nat}

theorem storesAll_nil (index : Nat) :
    StoresAll valid store load limits p q v [] [] index 0 True [] 0 0 := by
  intro before b n hbefore hb hr
  refine ends_pure
    ⟨trivial, {}, 0, [], ?_, rfl, rfl, le_refl 0, le_refl 0, le_refl 0, readsAll_nil index⟩
  rw [Builder.append_empty]

theorem StoresAll.mono (h : StoresAll valid store load limits p q v is js index opened conforms
      fields bits refs) (hconf : conforms ↔ conforms') (hb : bits ≤ bits') (hr : refs ≤ refs') :
    StoresAll valid store load limits p q v is js index opened conforms' fields bits' refs' := by
  intro before b n hbefore hb' hr'
  refine (h before b n hbefore (by omega) (by omega)).mono ?_ fun _ _ he => he.mono hconf.2
  rintro builders n' ⟨hc, e, k, behind, hbs, hlen, hn, hk, he, her, hreads⟩
  exact ⟨hconf.1 hc, e, k, behind, hbs, hlen, hn, hk, he.trans hb, her.trans hr, hreads⟩

theorem StoresAll.append
    (h : StoresAll valid store load limits p q v is js index 0 conforms fields bits refs)
    (h' : StoresAll valid store load limits p q v is' js' index opened conforms' fields' bits' refs') :
    StoresAll valid store load limits p q v (is ++ is') (js ++ js') index opened
      (conforms ∧ conforms') (fields ++ fields') (bits + bits') (refs + refs') := by
  intro before b n hbefore hb hr
  rw [storeAll_append]
  have hfirst := (h before b n hbefore (by omega) (by omega)).mono (fun _ _ h => h)
    fun e _ he => he.mono (fun hc : conforms ∧ conforms' => hc.1)
  refine hfirst.bind ?_
  rintro builders n' ⟨hc, e, k, behind, rfl, hlen, rfl, hk, he, her, hreads⟩
  obtain rfl := List.eq_nil_of_length_eq_zero hlen
  have hb' : (b ++ e).bits.length + bits' ≤ maxCellBits := by
    rw [Builder.bits_append, List.length_append]
    omega
  have hr' : (b ++ e).refs.length + refs' ≤ maxCellRefs := by
    rw [Builder.refs_append, List.length_append]
    omega
  refine (h' before (b ++ e) n' hbefore hb' hr').mono ?_ fun _ _ he => he.mono fun hc => hc.2
  rintro builders n'' ⟨hc', e', k', behind', rfl, hlen', rfl, hk', he', her', hreads'⟩
  refine
    ⟨⟨hc, hc'⟩, e ++ e', k + k', behind', ?_, hlen', by omega, ?_, ?_, ?_, hreads.append hreads'⟩
  · rw [Builder.append_assoc]
  · rw [List.length_append]
    omega
  · rw [Builder.bits_append, List.length_append]
    omega
  · rw [Builder.refs_append, List.length_append]
    omega

theorem ends_fieldValue (p : Program) (v : Value) (field : String) (n : Nat) :
    Ends (fieldValue p v field) n (fun x n' => n' = n ∧ v.get? field = some x)
      fun e _ => e.isRefusal = true ∧ v.get? field = none := by
  cases v with
  | record entries =>
    simp only [fieldValue, Value.get?]
    cases entries.lookup field with
    | none => exact ends_throw ⟨rfl, rfl⟩
    | some x => exact ends_pure ⟨rfl, rfl⟩
  | _ => exact ends_throw ⟨rfl, rfl⟩

/-- The field of the placement is declared, and it is written or refused. -/
def StoresPlacement (shape : String → Option Shape) (valid : Prop)
    (store : String → Builder → Value → Run Builder) (load : String → Slice → Run (Value × Slice))
    (declared : Shape) (pl : Placement) : Prop :=
  ∃ type, declared.lookup pl.field = some type
    ∧ StoresField shape valid store load pl.field type pl.op pl.bits pl.refs

/-- The field of a placement is written behind what its builder holds, or refused. -/
theorem ends_storePlacement {pl : Placement}
    (h : StoresPlacement shape valid store load declared pl) {before : List Builder} {b : Builder}
    (hbefore : before.length = index) (hb : b.bits.length + pl.bits ≤ maxCellBits)
    (hr : b.refs.length + pl.refs ≤ maxCellRefs) (n : Nat) :
    Ends (storeInstr store p v (before ++ [b]) (.store index pl.field pl.op)) n
      (fun builders n' => v.ConformsAt shape declared pl.field ∧ ∃ e k x,
        builders = before ++ [b ++ e] ∧ n = n' + k ∧ e.bits.length ≤ pl.bits
          ∧ e.refs.length ≤ pl.refs
          ∧ v.keptField shape declared pl.field = some (pl.field, x)
          ∧ Run.Reads (loadOp load pl.op) e k x)
      fun e _ => Refuses valid (v.ConformsAt shape declared pl.field) e := by
  obtain ⟨type, htype, hstores⟩ := h
  have hvalue := (ends_fieldValue p v pl.field n).mono (fun _ _ h => h)
    fun e _ ⟨hrefusal, hnone⟩ => (Or.inr ⟨hrefusal, fun _ ⟨_, x, _, hx, _⟩ => by
      rw [hnone] at hx
      cases hx⟩ : Refuses valid (v.ConformsAt shape declared pl.field) e)
  refine hvalue.bind ?_
  rintro x m ⟨rfl, hx⟩
  have hslot := run_slot_middle (p := p) (.store index pl.field pl.op) b [] hbefore m
  refine ends_bind_of_run hslot ?_
  have hconf : x.Conforms shape type ↔ v.ConformsAt shape declared pl.field := by
    constructor
    · exact fun hc => ⟨type, x, htype, hx, hc⟩
    · rintro ⟨type', x', htype', hx', hc⟩
      obtain rfl := Option.some.inj (htype.symm.trans htype')
      obtain rfl := Option.some.inj (hx.symm.trans hx')
      exact hc
  have hop := (hstores x b m hb hr).mono (fun _ _ h => h) fun e _ he => he.mono hconf.2
  refine hop.bind ?_
  rintro b' m' ⟨hc, e, k, rfl, rfl, he, her, hreads⟩
  have hkept : v.keptField shape declared pl.field = some (pl.field, x.norm shape type) := by
    rw [Value.keptField, hx, Option.map_some, htype]
  exact ends_pure ⟨hconf.1 hc, e, k, _, set_middle hbefore, rfl, he, her, hkept, hreads⟩

theorem storesAll_placement {pl : Placement}
    (h : StoresPlacement shape valid store load declared pl) (index : Nat) :
    StoresAll valid store load limits p q v [.store index pl.field pl.op]
      [.load index pl.field pl.op] index 0 (v.ConformsAt shape declared pl.field)
      (v.keptField shape declared pl.field).toList pl.bits pl.refs := by
  intro before b n hbefore hb hr
  refine ends_storeAll_one fun n' hn => (ends_storePlacement h hbefore hb hr n').mono ?_ ?_
  · rintro builders m ⟨hc, e, k, x, rfl, rfl, he, her, hkept, hreads⟩
    refine ⟨hc, e, k + 1, [], rfl, rfl, by omega, by simp, he, her, ?_⟩
    rw [hkept]
    exact readsAll_load hreads index
  · exact fun _ _ he => he

/-- A header is written behind what the first builder holds. -/
theorem run_storeHeader (header : UInt32) {before : List Builder} {b : Builder}
    (hbefore : before.length = 0) (hb : b.bits.length + headerBits ≤ maxCellBits)
    (hr : b.refs.length ≤ maxCellRefs) (n : Nat) :
    (storeInstr store p v (before ++ [b]) (.storeHeader 0 header)).run n =
      (.ok (before ++ [b ++ .ofBits (Bits.ofNat headerBits header.toNat)]), n) := by
  have hslot := run_slot_middle (p := p) (.storeHeader 0 header) b [] hbefore n
  have hroom : b.HasRoom (.ofBits (Bits.ofNat headerBits header.toNat)) :=
    ⟨by simpa using hb, by simpa using hr⟩
  have hwrite := Builder.appends_storeUint (n := headerBits) (by decide) header.toNat_lt
  refine (run_bind_ok hslot).trans ((run_bind_ok (Run.run_write hwrite hroom n)).trans ?_)
  rw [set_middle hbefore]
  rfl

theorem storesAll_header (header : UInt32) :
    StoresAll valid store load limits p q v [.storeHeader 0 header] [.checkHeader 0 header] 0 0 True
      [] headerBits 0 := by
  intro before b n hbefore hb hr
  refine ends_storeAll_one fun n' hn => .of_ok (run_storeHeader header hbefore hb hr n') ?_
  refine ⟨trivial, _, 1, [], rfl, rfl, hn, le_refl 1, ?_, ?_, readsAll_checkHeader header⟩
  · simp
  · simp

/-- A new builder behind the last one. -/
theorem run_beginCell {before : List Builder} {b : Builder} (hbefore : before.length = index)
    (n : Nat) :
    (storeInstr store p v (before ++ [b]) (.beginCell (index + 1))).run n =
      (.ok (before ++ [b] ++ [({} : Builder)]), n) := by
  have : index + 1 + 1 - (before ++ [b]).length = 1 := by
    simp [hbefore]
  rw [storeInstr, this]
  rfl

/-- The child is made a cell for its parent, and its builder is empty from then on. -/
theorem run_endCell {before behind : List Builder} {b e : Builder} (hbefore : before.length = index)
    (hb : b.bits.length ≤ maxCellBits) (hr : b.refs.length + 1 ≤ maxCellRefs) (n : Nat) :
    (storeInstr store p v (before ++ [b] ++ e :: behind) (.endCell index (index + 1))).run n =
      (.ok (before ++ (b ++ .ofRef e.toCell) :: {} :: behind), n) := by
  have hlast : (before ++ [b]).length = index + 1 := by simp [hbefore]
  have hchild := run_slot_middle (p := p) (.endCell index (index + 1)) e behind hlast n
  have hset : (before ++ [b] ++ e :: behind).set (index + 1) {} = before ++ b :: {} :: behind := by
    rw [set_middle hlast, List.append_assoc]
    rfl
  have hparent :=
    run_slot_middle (p := p) (.endCell index (index + 1)) b ({} :: behind) hbefore n
  have hroom : b.HasRoom (.ofRef e.toCell) := ⟨by simpa using hb, hr⟩
  have hwrite := Run.run_write (Builder.puts_storeRef e.toCell).appends hroom n
  unfold storeInstr
  refine (run_bind_ok hchild).trans ?_
  simp only [hset]
  refine (run_bind_ok hparent).trans ((run_bind_ok hwrite).trans ?_)
  rw [set_middle hbefore]
  rfl

/-- The next cell, written by itself and then referred to. -/
theorem StoresAll.nextCell (h : StoresAll valid store load limits p q v is js (index + 1) opened
      conforms fields maxCellBits maxCellRefs) :
    StoresAll valid store load limits p q v (.beginCell (index + 1) :: is ++ [.endCell index (index + 1)])
      (.openCell index (index + 1) :: js) index (opened + 1) conforms fields 0 1 := by
  intro before b n hbefore hb hr
  have hbegin : ∀ n', n = n' + 1 → Ends (storeInstr store p v (before ++ [b]) (.beginCell (index + 1)))
      n' (fun builders m => builders = before ++ [b] ++ [({} : Builder)] ∧ n = m + 1)
      fun e _ => Refuses valid conforms e :=
    fun n' hn => .of_ok (run_beginCell hbefore n') ⟨rfl, hn⟩
  rw [List.cons_append, ← List.singleton_append, storeAll_append]
  refine (ends_storeAll_one hbegin).bind ?_
  rintro builders m ⟨rfl, hn⟩
  rw [storeAll_append]
  refine (h (before ++ [b]) {} m (by simp [hbefore]) (by simp) (by simp)).bind ?_
  rintro builders m' ⟨hc, e, k, behind, rfl, hlen, rfl, hk, -, -, hreads⟩
  rw [Builder.empty_append]
  refine ends_storeAll_one fun m'' hm => .of_ok (run_endCell hbefore hb hr m'') ?_
  refine ⟨hc, _, k + 2, {} :: behind, rfl, ?_, by omega, ?_, ?_, ?_, ?_⟩
  · simp [hlen]
  · simpa using hk
  · exact le_refl 0
  · exact le_refl 1
  · obtain ⟨used, hused, hl⟩ := readsAll_openCell hreads
    exact ⟨used, by omega, hl⟩

/-! ## Cells -/

/-- The fields of one cell, one behind the other. -/
theorem storesAll_placements {pls : List Placement} {start stop : CellSize} (index : Nat)
    (hplaces : Contiguous start pls stop)
    (h : ∀ pl ∈ pls, StoresPlacement shape valid store load declared pl) :
    StoresAll valid store load limits p q v (pls.map fun pl => .store index pl.field pl.op)
      (pls.map fun pl => .load index pl.field pl.op) index 0
      (∀ pl ∈ pls, v.ConformsAt shape declared pl.field)
      (pls.filterMap fun pl => v.keptField shape declared pl.field)
      (stop.bits - start.bits) (stop.refs - start.refs) := by
  induction pls generalizing start with
  | nil => exact (storesAll_nil index).mono (by simp) (Nat.zero_le _) (Nat.zero_le _)
  | cons pl pls ih =>
    obtain ⟨-, -, hrest⟩ := hplaces
    have hle := hrest.le
    have hfields : (pl :: pls).filterMap (fun pl => v.keptField shape declared pl.field) =
        (v.keptField shape declared pl.field).toList
          ++ pls.filterMap fun pl => v.keptField shape declared pl.field := by
      rw [List.filterMap_cons]
      cases v.keptField shape declared pl.field <;> rfl
    rw [hfields]
    have hbehind := ih hrest fun pl hpl => h pl (List.mem_cons_of_mem _ hpl)
    refine ((storesAll_placement (h pl List.mem_cons_self) index).append hbehind).mono ?_ ?_ ?_
    · simp only [List.forall_mem_cons]
    · simp only at hle ⊢
      omega
    · simp only at hle ⊢
      omega

/-- The fields of all cells, each next cell behind the last reference of the one before. -/
theorem storesAll_cells (rest : List LayoutCell) :
    ∀ (c : LayoutCell) (index : Nat) (start : CellSize), c.Fits start → (∀ c ∈ rest, c.Fits .zero) →
      (∀ pl ∈ (c :: rest).flatMap (·.placements),
        StoresPlacement shape valid store load declared pl) →
      StoresAll valid store load limits p q v (Layout.storeCells index (c :: rest))
        (Layout.loadCells index (c :: rest)) index rest.length
        (∀ pl ∈ (c :: rest).flatMap (·.placements), v.ConformsAt shape declared pl.field)
        (((c :: rest).flatMap (·.placements)).filterMap
          fun pl => v.keptField shape declared pl.field)
        (c.used.bits - start.bits) (c.used.refs - start.refs + min 1 rest.length) := by
  induction rest with
  | nil =>
    intro c index start hc _ h
    have hcells : [c].flatMap (·.placements) = c.placements := List.append_nil _
    rw [hcells] at h ⊢
    exact storesAll_placements index hc.contiguous h
  | cons next rest ih =>
    intro c index start hc hrest h
    have hnext := hrest next List.mem_cons_self
    obtain ⟨hbits, hrefs⟩ := CellSize.fitsCell_iff.1 hnext.used_fits
    have hsplit : (c :: next :: rest).flatMap (·.placements) =
        c.placements ++ (next :: rest).flatMap (·.placements) := List.flatMap_cons
    rw [hsplit] at h ⊢
    have hchain := ih next (index + 1) .zero hnext
      (fun c hc => hrest c (List.mem_cons_of_mem _ hc)) fun pl hpl => h pl (List.mem_append_right _ hpl)
    -- the next cell has no more references than its fields and the one to the cell behind it
    have hwhole : next.used.refs - CellSize.zero.refs + min 1 rest.length ≤ maxCellRefs := by
      simp only [usableCellRefs, maxCellRefs] at hrefs ⊢
      omega
    have hchain := (hchain.mono Iff.rfl ((Nat.sub_le _ _).trans hbits) hwhole).nextCell
    have hall := (storesAll_placements index hc.contiguous fun pl hpl =>
      h pl (List.mem_append_left _ hpl)).append hchain
    rw [List.filterMap_append]
    have hstores : Layout.storeCells index (c :: next :: rest) =
        (c.placements.map fun pl => Instr.store index pl.field pl.op)
          ++ (.beginCell (index + 1) :: Layout.storeCells (index + 1) (next :: rest)
            ++ [.endCell index (index + 1)]) := List.append_assoc _ _ _
    rw [hstores]
    refine hall.mono ?_ (by omega) ?_
    · simp only [List.mem_append, or_imp, forall_and]
    · simp

end

end CellPack.Machine
