import Mathlib
import CellPack.Proofs.Runs
/-!
# Writing and reading a field

An operation either writes a piece that the reading operation gives back as what the value is
written from, or refuses the value because it does not conform to the type (`ends_storeOp`). What
an operation reads from any slice is exact for the type (`ends_loadOp`). Both rest on the same of
the programs of contained records.
-/

namespace CellPack.Machine

open Step

variable {shape : String → Option Shape} {first : String → CellSize} {nested : String → Prop}
  {valid : Prop} {store : String → Builder → Value → Run Builder}
  {load : String → Slice → Run (Value × Slice)}

/-! ## Writing -/

theorem fits_of_encode? {f : IntFormat} {v : Int} {bits : List Bool}
    (h : f.encode? v = some bits) : f.fits v = true := by
  by_cases hf : f = .int 0
  · subst hf
    simp [IntFormat.encode?] at h
  · exact (IntFormat.isSome_encode? hf v).1 (h ▸ rfl)

/-- How the operation for a field of a type ends on a value: written, or refused for a reason. -/
def StoresField (shape : String → Option Shape) (valid : Prop)
    (store : String → Builder → Value → Run Builder) (load : String → Slice → Run (Value × Slice))
    (field : String) (type : FieldType) (op : FieldOp) (bits refs : Nat) : Prop :=
  ∀ (v : Value) (b : Builder) (n : Nat), b.bits.length + bits ≤ maxCellBits →
    b.refs.length + refs ≤ maxCellRefs →
    Ends (storeOp store field op v b) n
      (fun b' n' => v.Conforms shape type
        ∧ Wrote (loadOp load op) (v.norm shape type) bits refs b n b' n')
      fun e _ => Refuses valid (v.Conforms shape type) e

/-- A value of another kind is refused. -/
theorem ends_mismatch {field expected : String} {type : FieldType} {v : Value}
    {ok : Builder → Nat → Prop} (h : ¬v.Conforms shape type) (n : Nat) :
    Ends (throw (.shapeMismatch field expected) : Run Builder) n ok
      fun e _ => Refuses valid (v.Conforms shape type) e :=
  ends_throw (.inr ⟨rfl, fun _ => h⟩)

theorem stores_int {field : String} {format : IntFormat} {bits refs : Nat}
    (hsize : format.maxBits ≤ bits) (hvalid : valid → format ≠ .int 0) :
    StoresField shape valid store load field (.int format) (.int format) bits refs := by
  intro v b n hb hr
  cases v with
  | int v =>
    refine Run.ends_write (puts_storeInt format v).appends n hb hr (fun e he => ?_) fun hnone hv h => ?_
    · obtain ⟨form, hform, rfl⟩ := Option.map_eq_some_iff.1 he
      refine ⟨.int (fits_of_encode? hform), (IntFormat.length_encode? hform).trans hsize, ?_, ?_⟩
      · exact Nat.zero_le _
      · exact Run.reads_read ((reads_loadInt hform).map Value.int rfl)
    · cases h with
      | int hfits =>
        rw [← IntFormat.isSome_encode? (hvalid hv), Option.isSome_iff_exists] at hfits
        obtain ⟨form, hform⟩ := hfits
        rw [hform] at hnone
        cases hnone
  | _ => exact ends_mismatch (by rintro ⟨⟩) n

theorem stores_bool {field : String} {bits refs : Nat} (hsize : 1 ≤ bits) :
    StoresField shape valid store load field .bool .bool bits refs := by
  intro v b n hb hr
  cases v with
  | bool x =>
    refine Run.ends_write (Builder.puts_storeBit x).appends n hb hr (fun e he => ?_) nofun
    obtain rfl := Option.some.inj he
    exact ⟨.bool x, hsize, Nat.zero_le _,
      Run.reads_read ((Slice.reads_loadBit x).map Value.bool rfl)⟩
  | _ => exact ends_mismatch (by rintro ⟨⟩) n

theorem stores_address {field : String} {bits refs : Nat} (hsize : addressBits ≤ bits) :
    StoresField shape valid store load field .address .address bits refs := by
  intro v b n hb hr
  cases v with
  | address a =>
    refine Run.ends_write (Builder.puts_storeAddress a).appends n hb hr (fun e he => ?_) nofun
    obtain rfl := Option.some.inj he
    exact ⟨.address a, a.length_encode.trans_le hsize, Nat.zero_le _,
      Run.reads_read ((Slice.reads_loadAddress a).map Value.address rfl)⟩
  | _ => exact ends_mismatch (by rintro ⟨⟩) n

theorem stores_bits {field : String} {count bits refs : Nat} (hsize : count ≤ bits) :
    StoresField shape valid store load field (.bits count) (.bits count) bits refs := by
  intro v b n hb hr
  cases v with
  | bits bytes =>
    refine Run.ends_write (Builder.puts_storeBits bytes count).appends n hb hr (fun e he => ?_) ?_
    · obtain ⟨hcount, he⟩ := Option.ite_none_right_eq_some.1 he
      obtain rfl := Option.some.inj he
      refine ⟨.bits hcount, ?_, Nat.zero_le _, ?_⟩
      · rw [Builder.bits_ofBits, Bits.length_take_ofBytes hcount]
        exact hsize
      · exact Run.reads_read ((Slice.reads_loadBits hcount).map Value.bits rfl)
    · intro hnone _ h
      cases h with
      | bits hcount => simp [hcount] at hnone
  | _ => exact ends_mismatch (by rintro ⟨⟩) n

/-- A value that takes one reference and no bits. -/
theorem stores_ref {field : String} {type : FieldType} {kind : RefKind} {bits refs : Nat}
    (hsize : 1 ≤ refs) (h : FieldType.Lowers type (.ref kind)) :
    StoresField shape valid store load field type (.ref kind) bits refs := by
  intro v b n hb hr
  have hcell (c : Cell) (hconf : Value.Conforms shape type (.cell c)) :
      Ends (Run.write (Builder.storeRef c) b) n
        (fun b' n' => Value.Conforms shape type (.cell c)
          ∧ Wrote (Run.read (Value.cell <$> Slice.loadRef)) (Value.norm shape type (.cell c))
            bits refs b n b' n')
        fun e _ => Refuses valid (Value.Conforms shape type (.cell c)) e := by
    refine Run.ends_write (Builder.puts_storeRef c).appends n hb hr (fun e he => ?_) nofun
    obtain rfl := Option.some.inj he
    rw [Value.norm_cell]
    exact ⟨hconf, Nat.zero_le _, hsize,
      Run.reads_read ((Slice.reads_loadRef c).map Value.cell rfl)⟩
  cases h with
  | cell =>
    cases v with
    | cell c => exact hcell c (.cell c)
    | _ => exact ends_mismatch (by rintro ⟨⟩) n
  | slice =>
    cases v with
    | cell c => exact hcell c (.slice c)
    | _ => exact ends_mismatch (by rintro ⟨⟩) n
  | builder =>
    cases v with
    | cell c => exact hcell c (.builder c)
    | _ => exact ends_mismatch (by rintro ⟨⟩) n
  | string =>
    cases v with
    | string s =>
      refine Run.ends_write (Builder.puts_storeRef (Cell.ofText s)).appends n hb hr (fun e he => ?_) nofun
      obtain rfl := Option.some.inj he
      exact ⟨.string s, Nat.zero_le _, hsize,
        Run.reads_read ((reads_loadText s).map Value.string rfl)⟩
    | _ => exact ends_mismatch (by rintro ⟨⟩) n

theorem conforms_dict {type : FieldType} (h : FieldType.Lowers type .dict) {v : Value} :
    v.Conforms shape type ↔ ∃ root, v = dictValue root := by
  generalize hop : FieldOp.dict = op at h
  induction h with
  | map key value =>
    constructor
    · rintro (_ | _)
      · exact ⟨none, rfl⟩
      · rename_i c
        exact ⟨some c, rfl⟩
    · rintro ⟨_ | c, rfl⟩
      · exact .emptyMap key value
      · exact .map key value c
  | @optionalMap type _ ih =>
    constructor
    · intro hconf
      cases hconf with
      | absent => exact ⟨none, rfl⟩
      | present hconf => exact (ih rfl).1 hconf
    · exact fun hroot => .present ((ih rfl).2 hroot)
  | _ => cases hop

theorem norm_dict (type : FieldType) (root : Option Cell) :
    Value.norm shape type (dictValue root) = dictValue root := by
  cases root with
  | none => exact Value.norm_null type
  | some c => exact Value.norm_cell type c

theorem stores_dict {field : String} {type : FieldType} {bits refs : Nat} (hbits : 1 ≤ bits)
    (hrefs : 1 ≤ refs) (h : FieldType.Lowers type .dict) :
    StoresField shape valid store load field type .dict bits refs := by
  intro v b n hb hr
  have hdict (root : Option Cell) : Ends (Run.write (storeDict root) b) n
      (fun b' n' => (dictValue root).Conforms shape type
        ∧ Wrote (Run.read loadDict) ((dictValue root).norm shape type) bits refs b n b' n')
      fun e _ => Refuses valid ((dictValue root).Conforms shape type) e := by
    refine Run.ends_write (appends_storeDict root) n hb hr (fun e he => ?_) nofun
    obtain rfl := Option.some.inj he
    rw [norm_dict]
    refine ⟨(conforms_dict h).2 ⟨root, rfl⟩, ?_, ?_, Run.reads_read (reads_loadDict root)⟩
    · cases root <;> exact hbits
    · cases root
      · exact Nat.zero_le _
      · exact hrefs
  cases v with
  | null => exact hdict none
  | cell c => exact hdict (some c)
  | _ =>
    refine ends_mismatch (fun hconf => ?_) n
    obtain ⟨_ | c, hroot⟩ := (conforms_dict h).1 hconf <;> cases hroot

/-! ## Optional values -/

theorem conforms_present {type : FieldType} {v : Value} (hv : v ≠ .null) :
    v.Conforms shape (.optional type) ↔ v.Conforms shape type := by
  constructor
  · intro h
    cases h with
    | absent => exact absurd rfl hv
    | present h => exact h
  · exact .present

/-- Reads an optional value behind its bit. -/
def loadBehind (load : String → Slice → Run (Value × Slice)) (op : FieldOp) (boxed present : Bool)
    (s : Slice) : Run (Value × Slice) := do
  if !present then return (.null, s)
  else if boxed then
    let (c, s) ← Run.read Slice.loadRef s
    let (v, _) ← loadOp load op c.toSlice
    return (v, s)
  else loadOp load op s

theorem loadOp_optional (op : FieldOp) (boxed : Bool) :
    loadOp load (.optional op boxed) =
      fun s => Run.read Slice.loadBit s >>= fun r => loadBehind load op boxed r.1 r.2 := rfl

theorem reads_optional {op : FieldOp} {boxed present : Bool} {e : Builder} {k : Nat} {v : Value}
    (h : Run.Reads (loadBehind load op boxed present) e k v) :
    Run.Reads (loadOp load (.optional op boxed)) (.ofBits [present] ++ e) k v := by
  rw [loadOp_optional]
  have := (Run.reads_read (Slice.reads_loadBit present)).bind (f := loadBehind load op boxed) h
  rwa [Nat.zero_add] at this

theorem storeOp_present {field : String} {op : FieldOp} {v : Value} (hv : v ≠ .null) (boxed : Bool)
    (b : Builder) : storeOp store field (.optional op boxed) v b =
      Run.write (Builder.storeBit true) b >>= fun b =>
        if boxed then do
          let child ← storeOp store field op v {}
          Run.write (Builder.storeRef child.toCell) b
        else storeOp store field op v b := by
  cases boxed <;> cases v <;> first | rfl | exact absurd rfl hv

/-- The bit of a present value, and what is written behind it. -/
theorem run_present {b : Builder} (hb : b.bits.length + 1 ≤ maxCellBits)
    (hr : b.refs.length ≤ maxCellRefs) (n : Nat) :
    (Run.write (Builder.storeBit true) b).run n = (.ok (b ++ .ofBits [true]), n) :=
  Run.run_write (Builder.puts_storeBit true).appends ⟨hb, by simpa using hr⟩ n

/-- A map in an optional value aside, the bit of an optional value stands in front of it. -/
theorem stores_optional {field : String} {type : FieldType} {op : FieldOp} {boxed : Bool}
    {bits refs : Nat} (hbits : 1 ≤ bits)
    (h : ∀ (v : Value) (b : Builder) (n : Nat), v ≠ .null →
      b.bits.length + (bits - 1) ≤ maxCellBits → b.refs.length + refs ≤ maxCellRefs →
      Ends (if boxed then do
          let child ← storeOp store field op v {}
          Run.write (Builder.storeRef child.toCell) b
        else storeOp store field op v b) n
        (fun b' n' => v.Conforms shape type
          ∧ Wrote (loadBehind load op boxed true) (v.norm shape type) (bits - 1) refs b n b' n')
        fun e _ => Refuses valid (v.Conforms shape type) e) :
    StoresField shape valid store load field (.optional type) (.optional op boxed) bits refs := by
  intro v b n hb hr
  by_cases hv : v = .null
  -- the bit alone
  · subst hv
    have hbehind : Run.Reads (loadBehind load op boxed false) {} 0 Value.null :=
      Run.reads_pure Value.null
    have hload : Run.Reads (loadOp load (.optional op boxed)) (.ofBits [false]) 0 Value.null :=
      reads_optional hbehind
    rw [Value.norm_null]
    have hstore : storeOp store field (.optional op boxed) .null b =
        Run.write (Builder.storeBit false) b := by cases boxed <;> rfl
    rw [hstore]
    refine Run.ends_write (Builder.puts_storeBit false).appends n hb hr (fun e he => ?_) nofun
    obtain rfl := Option.some.inj he
    exact ⟨.absent type, hbits, Nat.zero_le _, hload⟩
  -- the bit, and the value behind it
  · rw [storeOp_present hv, Value.norm_optional, conforms_present hv]
    refine ends_bind_of_run (run_present (by omega) (by omega) n) ?_
    have hb' : (b ++ .ofBits [true]).bits.length + (bits - 1) ≤ maxCellBits := by
      simp
      omega
    refine (h v _ n hv hb' (by simpa using hr)).mono (fun b' n' => ?_) fun _ _ he => he
    rintro ⟨hconf, e, k, rfl, hn, he, her, hreads⟩
    refine ⟨hconf, .ofBits [true] ++ e, k, Builder.append_assoc _ _ _, hn, ?_, by simpa using her, ?_⟩
    · simp
      omega
    · exact reads_optional hreads

/-! ## Records and all types -/

theorem stores_record {field name : String} {boxed : Bool} {bits refs : Nat}
    (hcall : StoresRecord shape first valid store load name)
    (hfirst : (first name).bits ≤ maxCellBits ∧ (first name).refs ≤ maxCellRefs)
    (hsize : (FieldOp.record name boxed).Within first bits refs) :
    StoresField shape valid store load field (.record name) (.record name boxed) bits refs := by
  intro v b n hb hr
  cases v with
  | record entries =>
    cases boxed with
    | false =>
      obtain ⟨hbits, hrefs⟩ := hsize
      refine (hcall b entries n (by omega) (by omega)).mono (fun b' n' => ?_) fun _ _ he => he
      rintro ⟨hconf, hwrote⟩
      exact ⟨hconf, hwrote.mono hbits hrefs⟩
    | true =>
      have hrefs : 1 ≤ refs := hsize
      refine (hcall {} entries n ?_ ?_).bind fun child n' ⟨hconf, hwrote⟩ => ?_
      · simpa using hfirst.1
      · simpa using hfirst.2
      obtain ⟨b', hrun, hboxed⟩ := hwrote.boxed (b := b) (by omega) (by omega)
      exact .of_ok hrun ⟨hconf, hboxed.mono (Nat.zero_le _) hrefs⟩
  | _ => cases boxed <;> exact ends_mismatch (by rintro ⟨⟩) n

/-- Every field is written as the reading of the field expects, unless its value is refused. -/
theorem stores_field {field : String} {type : FieldType} {op : FieldOp}
    (h : FieldType.Lowers type op)
    (hcall : ∀ name ∈ type.mentioned, StoresRecord shape first valid store load name)
    (hfirst : ∀ name, (first name).bits ≤ maxCellBits ∧ (first name).refs ≤ maxCellRefs)
    (hvalid : valid → .int 0 ∉ type.formats) :
    ∀ {bits refs : Nat}, op.Within first bits refs →
      StoresField shape valid store load field type op bits refs := by
  induction h with
  | int format =>
    exact fun hsize => stores_int hsize fun hv hf => hvalid hv (by simp [FieldType.formats, hf])
  | bool => exact stores_bool
  | address => exact stores_address
  | bits n => exact stores_bits
  | cell => exact fun hsize => stores_ref hsize .cell
  | slice => exact fun hsize => stores_ref hsize .slice
  | builder => exact fun hsize => stores_ref hsize .builder
  | string => exact fun hsize => stores_ref hsize .string
  | map key value => exact fun hsize => stores_dict hsize.1 hsize.2 (.map key value)
  | record name boxed =>
    exact stores_record (hcall name (by simp [FieldType.mentioned])) (hfirst name)
  | optionalMap h _ => exact fun hsize => stores_dict hsize.1 hsize.2 (.optionalMap h)
  | @optional type op boxed h _ ih =>
    intro bits refs hsize
    cases boxed with
    | false => exact stores_optional hsize.1 fun v b n _ => ih hcall hvalid hsize.2 v b n
    | true =>
      -- the value has a whole cell to itself, whatever is in the one it is referred to from
      obtain ⟨hbits, hrefs, hinner⟩ := hsize
      refine stores_optional hbits fun v b n _ hb hr => ?_
      refine (ih hcall hvalid hinner v {} n (by simp) (by simp)).bind
        fun child n' ⟨hconf, hwrote⟩ => ?_
      obtain ⟨b', hrun, hboxed⟩ := hwrote.boxed (b := b) (by omega) (by omega)
      exact .of_ok hrun ⟨hconf, hboxed.mono (Nat.zero_le _) hrefs⟩

/-! ## Reading -/

/-- Whatever a slice holds, a field reads as an exact value of its type. -/
theorem ends_loadOp {type : FieldType} {op : FieldOp} (h : FieldType.Lowers type op)
    (hcall : ∀ name ∈ type.mentioned, LoadsRecord shape load name) :
    ∀ (s : Slice) (n : Nat), Ends (loadOp load op s) n (fun r _ => r.1.Exact shape type)
      fun e _ => Rejects e := by
  induction h with
  | int format =>
    exact Run.ends_read ((yields_loadInt format).map fun v hv => .int hv)
  | bool => exact Run.ends_read (Slice.yields_loadBit.map fun b _ => .bool b)
  | address => exact Run.ends_read (Slice.yields_loadAddress.map fun a _ => .address a)
  | bits n =>
    exact Run.ends_read ((Slice.yields_loadBits n).map fun bytes hb => .bits hb.1 hb.2)
  | cell => exact Run.ends_read (Slice.yields_loadRef.map fun c _ => .cell c)
  | slice => exact Run.ends_read (Slice.yields_loadRef.map fun c _ => .slice c)
  | builder => exact Run.ends_read (Slice.yields_loadRef.map fun c _ => .builder c)
  | string => exact Run.ends_read (yields_loadText.map fun s _ => .string s)
  | map key value =>
    refine Run.ends_read (yields_loadDict.mono fun v hv => ?_)
    obtain ⟨_ | c, rfl⟩ := hv
    · exact .emptyMap key value
    · exact .map key value c
  | record name boxed =>
    intro s n
    have hname := hcall name (by simp [FieldType.mentioned])
    cases boxed with
    | false => exact hname s n
    | true =>
      refine (Run.ends_read Slice.yields_loadRef s n).bind fun r n _ => ?_
      exact (hname r.1.toSlice n).bind fun r' n hr' => ends_pure hr'
  | optionalMap _ ih =>
    exact fun s n => (ih hcall s n).mono (fun r _ hr => .present hr) fun _ _ he => he
  | @optional type op boxed h _ ih =>
    intro s n
    refine (Run.ends_read Slice.yields_loadBit s n).bind fun r n _ => ?_
    obtain ⟨present, s⟩ := r
    cases present with
    | false => exact ends_pure (.absent type)
    | true =>
      cases boxed with
      | false => exact (ih hcall s n).mono (fun r _ hr => .present hr) fun _ _ he => he
      | true =>
        refine (Run.ends_read Slice.yields_loadRef s n).bind fun r n _ => ?_
        exact (ih hcall r.1.toSlice n).bind fun r' n hr' => ends_pure (.present hr')

end CellPack.Machine
