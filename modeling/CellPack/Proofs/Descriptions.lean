import Mathlib
import CellPack.Proofs.FormatNames
import CellPack.Proofs.Outline
import CellPack.Proofs.Readable
/-!
# JSON forms are read back

Writers and readers of JSON forms are inverse: expressions, field types and record types come back
from what is written for them (`jsonForms_readBack`). An integer comes back as a number or as a
text, a type by its kind and its parts, a record type slot by slot; only values of slots are not
written and come back absent.
-/

namespace CellPack

/-! ## Expressions -/

theorem BinaryOp.choice?_name (d : Nat) (op : BinaryOp) :
    Json.choice? d names (.str op.name) = some op := by
  cases op <;> rfl

theorem RecordKind.choice?_name (d : Nat) (kind : RecordKind) :
    Json.choice? d names (.str kind.name) = some kind := by
  cases kind <;> rfl

theorem Origin.choice?_name (d : Nat) (origin : Origin) :
    Json.choice? d names (.str origin.name) = some origin := by
  cases origin <;> rfl

namespace Expr

theorem intOfJson?_intToJson (v : Int) : intOfJson? (intToJson v) = some v := by
  unfold intToJson
  split
  · next h =>
    have hrange : -9223372036854775808 ≤ v ∧ v ≤ 18446744073709551615 := ⟨h.1, by omega⟩
    exact if_pos hrange
  · exact Numeral.grouped?_toString v

theorem toJson_ne_null (e : Expr) : e.toJson ≠ .null := by
  cases e <;> exact Json.noConfusion

theorem ofJson?_neg (d : Nat) (e : Expr) :
    ofJson? (d + 1) (neg e).toJson = neg <$> ofJson? d e.toJson := rfl

theorem ofJson?_binary (d : Nat) (op : BinaryOp) (l r : Expr) :
    ofJson? (d + 2) (binary op l r).toJson
      = (do
        let l ← ofJson? d l.toJson
        let r ← ofJson? d r.toJson
        some (binary op l r)) := by
  cases op <;> rfl

theorem ofJson?_toJson {e : Expr} {d : Nat} (h : e.toJson.readable d = true) :
    ofJson? d e.toJson = some e := by
  induction e generalizing d with
  | int v =>
    obtain ⟨n, rfl, -⟩ := Json.readable_obj.1 h
    exact congrArg (Option.map int) (intOfJson?_intToJson v)
  | null => cases d <;> rfl
  | bool | string | address | const =>
    obtain ⟨n, rfl, -⟩ := Json.readable_obj.1 h
    rfl
  | neg e ih =>
    obtain ⟨n, rfl, hbody⟩ := Json.readable_obj.1 h
    rw [ofJson?_neg, ih (hbody ("neg", e.toJson) List.mem_cons_self)]
    rfl
  | binary op l r ihl ihr =>
    -- the parts stand in an object of their own below the name of the form
    obtain ⟨n, rfl, hbody⟩ := Json.readable_obj.1 h
    obtain ⟨n, rfl, hparts⟩ := Json.readable_obj.1 (hbody _ List.mem_cons_self)
    rw [ofJson?_binary, ihl (hparts ("lhs", l.toJson) (by simp)),
      ihr (hparts ("rhs", r.toJson) (by simp))]
    rfl

/-- An expression that may be left out. The literal `null` is a text, so it is no absent one. -/
theorem optional_toJson {o : Option Expr} {d : Nat}
    (h : ∀ j ∈ o.map toJson, j.readable d = true) :
    Json.defaulting? (Json.nullable? (ofJson? d)) none (o.map toJson) = some o := by
  have hread : ∀ e ∈ o, ofJson? d e.toJson = some (id e) := fun e he =>
    ofJson?_toJson (h _ (Option.mem_map_of_mem _ he))
  rw [Json.optional_encode toJson_ne_null hread, Option.map_id]
  rfl

theorem legible_intToJson (v : Int) : (intToJson v).Legible := by
  unfold intToJson
  split
  · exact Json.legible_int v
  · exact Json.legible_str _

theorem legible (e : Expr) : e.toJson.Legible := by
  induction e with
  | null => exact Json.legible_str _
  | int v => exact Json.legible_obj (List.forall_mem_singleton.2 (legible_intToJson v))
  | bool b => exact Json.legible_obj (List.forall_mem_singleton.2 (Json.legible_bool b))
  | string s | address s | const s =>
    exact Json.legible_obj (List.forall_mem_singleton.2 (Json.legible_str s))
  | neg e ih => exact Json.legible_obj (List.forall_mem_singleton.2 ih)
  | binary op l r ihl ihr =>
    refine Json.legible_obj (List.forall_mem_singleton.2 (Json.legible_obj ?_))
    simpa using ⟨Json.legible_str op.name, ihl, ihr⟩

end Expr

/-! ## Field types -/

namespace FieldType

/--
The types that have a description: formats of integers have names, and counts of bits are numbers of
16 bits.
-/
def Describable : FieldType → Prop
  | int format => ∃ text, IntFormat.ofText? text = some format
  | bits n => n ≤ 65535
  | optional inner => inner.Describable
  | map key value => key.Describable ∧ value.Describable
  | _ => True

section
variable (nested : Bool) (d : Nat)

theorem decode?_int (format : IntFormat) : decode? nested (d + 1) (int format).toJson
    = int <$> IntFormat.ofText? format.text := rfl

theorem decode?_bits (n : Nat) : decode? nested (d + 1) (bits n).toJson
    = bits <$> bitCount? (.int n) := rfl

theorem decode?_optional (t : FieldType) : decode? nested (d + 1) (optional t).toJson
    = optional <$> decode? true d t.toJson := rfl

theorem decode?_map (k v : FieldType) : decode? nested (d + 1) (map k v).toJson
    = (do
      let k ← decode? true d k.toJson
      let v ← decode? true d v.toJson
      some (map k v)) := rfl

end

theorem decode?_toJson {t : FieldType} (ht : t.Describable) {d : Nat}
    (h : t.toJson.readable d = true) (nested : Bool) : decode? nested d t.toJson = some t := by
  induction t generalizing d nested with
  | int format =>
    obtain ⟨n, rfl, -⟩ := Json.readable_obj.1 h
    obtain ⟨text, htext⟩ := ht
    rw [decode?_int, IntFormat.ofText?_text (IntFormat.widthWithin_of_ofText? htext)]
    rfl
  | bits count =>
    obtain ⟨n, rfl, -⟩ := Json.readable_obj.1 h
    have hrange : (0 : Int) ≤ count ∧ (count : Int) ≤ 65535 :=
      ⟨Int.natCast_nonneg count, Int.ofNat_le.2 ht⟩
    rw [decode?_bits, bitCount?, if_pos hrange]
    rfl
  | bool | address | cell | slice | builder | string | record =>
    obtain ⟨n, rfl, -⟩ := Json.readable_obj.1 h
    rfl
  | optional t ih =>
    obtain ⟨n, rfl, hparts⟩ := Json.readable_obj.1 h
    rw [decode?_optional, ih ht (hparts ("inner", t.toJson) (by simp))]
    rfl
  | map k v ihk ihv =>
    obtain ⟨n, rfl, hparts⟩ := Json.readable_obj.1 h
    rw [decode?_map, ihk ht.1 (hparts ("key", k.toJson) (by simp)),
      ihv ht.2 (hparts ("value", v.toJson) (by simp))]
    rfl

theorem ofJson?_toJson {t : FieldType} (ht : t.Describable) {d : Nat}
    (h : t.toJson.readable d = true) : ofJson? d t.toJson = some t := by
  rw [ofJson?, if_pos h, decode?_toJson ht h]

theorem legible (t : FieldType) : t.toJson.Legible := by
  induction t with
  | int format =>
    exact Json.legible_obj (by simpa using ⟨Json.legible_str _, Json.legible_str _⟩)
  | bits n =>
    exact Json.legible_obj (by simpa using ⟨Json.legible_str _, Json.legible_int n⟩)
  | bool | address | cell | slice | builder | string =>
    exact Json.legible_obj (List.forall_mem_singleton.2 (Json.legible_str _))
  | record name =>
    exact Json.legible_obj (by simpa using ⟨Json.legible_str _, Json.legible_str name⟩)
  | optional t ih => exact Json.legible_obj (by simpa using ⟨Json.legible_str _, ih⟩)
  | map k v ihk ihv => exact Json.legible_obj (by simpa using ⟨Json.legible_str _, ihk, ihv⟩)

end FieldType

/-! ## Record types -/

/-- The field without the value of its default. -/
def Field.withoutValue (f : Field) : Field := { f with value := none }

namespace Field

theorem ofJson?_toJson {f : Field} (hf : f.type.Describable) {d : Nat}
    (h : f.toJson.readable d = true) : ofJson? d f.toJson = some f.withoutValue := by
  obtain ⟨n, rfl, hslots⟩ := Json.readable_present.1 h
  simp only [List.forall_mem_cons] at hslots
  obtain ⟨-, htype, hdefault, -⟩ := hslots
  have hrecord : Json.record? ["name", "type", "default"] f.toJson
      = some [some (.str f.name), some f.type.toJson, f.default.map Expr.toJson] :=
    Json.record?_present (by simp)
  have hread := FieldType.ofJson?_toJson hf (htype _ rfl)
  have hslot := Expr.optional_toJson hdefault
  simp only [ofJson?, hrecord, hread, hslot, Json.text?, Option.bind_eq_bind, Option.bind_some]
  rfl

theorem legible (f : Field) : f.toJson.Legible := by
  refine Json.legible_present ?_
  simp only [List.forall_mem_cons]
  refine ⟨?_, ?_, ?_, fun _ h => absurd h List.not_mem_nil⟩
  · rintro _ ⟨⟩
    exact Json.legible_str f.name
  · rintro _ ⟨⟩
    exact f.type.legible
  · exact Json.legible_map fun e _ => e.legible

end Field

namespace Constant

theorem ofJson?_toJson {c : Constant} (hc : c.type.Describable) {d : Nat}
    (h : c.toJson.readable d = true) : ofJson? d c.toJson = some c.blank := by
  obtain ⟨n, rfl, hslots⟩ := Json.readable_obj.1 h
  simp only [List.forall_mem_cons] at hslots
  obtain ⟨-, htype, hexpr, -⟩ := hslots
  have hrecord : Json.record? ["name", "type", "value", "origin"] c.toJson
      = some [some (.str c.name), some c.type.toJson, some c.expr.toJson,
        some (.str c.origin.name)] := by
    have hform : c.toJson = Json.present [("name", some (.str c.name)),
        ("type", some c.type.toJson), ("value", some c.expr.toJson),
        ("origin", some (.str c.origin.name))] := rfl
    rw [hform]
    exact Json.record?_present (by simp)
  have hread := FieldType.ofJson?_toJson hc htype
  have hvalue := Expr.ofJson?_toJson hexpr
  have horigin := Origin.choice?_name n c.origin
  simp only [ofJson?, hrecord, hread, hvalue, horigin, Json.text?, Json.defaulting?_some,
    Option.bind_eq_bind, Option.bind_some]
  rfl

theorem legible (c : Constant) : c.toJson.Legible := by
  refine Json.legible_obj ?_
  simp only [List.forall_mem_cons]
  exact ⟨Json.legible_str c.name, c.type.legible, c.expr.legible, Json.legible_str _,
    fun _ h => absurd h List.not_mem_nil⟩

end Constant

namespace RecordType

/-- The record type without the values of its slots. -/
def withoutValues (t : RecordType) : RecordType :=
  { t with
    fields := t.fields.map Field.withoutValue
    headerValue := none
    init := t.init.map (List.map Field.withoutValue)
    constants := t.constants.map Constant.blank }

/-- The types of all fields, setup parameters and constants have a description. -/
def Describable (t : RecordType) : Prop :=
  (∀ f ∈ t.allFields, f.type.Describable) ∧ ∀ c ∈ t.constants, c.type.Describable

theorem mem_allFields_of_init {t : RecordType} {params : List Field} {f : Field}
    (hparams : params ∈ t.init) (hf : f ∈ params) : f ∈ t.allFields := by
  refine List.mem_append_right _ ?_
  rw [Option.mem_def.1 hparams]
  exact hf

theorem ofJson?_toJson {t : RecordType} (ht : t.Describable) {d : Nat}
    (h : t.toJson.readable d = true) : ofJson? d t.toJson = some t.withoutValues := by
  obtain ⟨n, rfl, hslots⟩ := Json.readable_present.1 h
  simp only [List.forall_mem_cons] at hslots
  obtain ⟨-, -, hfields, hheader, -, -, hinit, hconstants, -⟩ := hslots
  have hrecord : Json.record? keys t.toJson = some [some (.str t.name), some (.str t.kind.name),
      some (.arr (t.fields.map Field.toJson)), t.header.map Expr.toJson, t.schema.map .str,
      some (.str t.origin.name), t.init.map fun params => .arr (params.map Field.toJson),
      if t.constants.isEmpty then none else some (.arr (t.constants.map Constant.toJson))] :=
    Json.record?_present (by simp)
  -- what the reader of each slot makes of it
  have hkind := RecordKind.choice?_name n t.kind
  have hfieldsRead := Json.nestedList?_encode (hfields _ rfl) fun f hf =>
    Field.ofJson?_toJson (ht.1 f (List.mem_append_left _ hf))
  have hheaderRead := Expr.optional_toJson hheader
  have hschema : Json.defaulting? (Json.nullable? Json.text?) none (t.schema.map .str)
      = some t.schema := by
    cases t.schema <;> rfl
  have horigin := Origin.choice?_name n t.origin
  have hinitRead : Json.defaulting? (Json.nullable? (Json.nestedList? Field.ofJson? n)) none
        (t.init.map fun params => .arr (params.map Field.toJson))
      = some (t.init.map (List.map Field.withoutValue)) := by
    refine Json.optional_encode (fun _ => Json.noConfusion) fun params hparams => ?_
    exact Json.nestedList?_encode (hinit _ (Option.mem_map_of_mem _ hparams)) fun f hf =>
      Field.ofJson?_toJson (ht.1 f (mem_allFields_of_init hparams hf))
  have hconstantsRead : Json.defaulting? (Json.nestedList? Constant.ofJson? n) []
        (if t.constants.isEmpty then none else some (.arr (t.constants.map Constant.toJson)))
      = some (t.constants.map Constant.blank) := by
    split
    · next hempty =>
      rw [List.isEmpty_iff.1 hempty]
      rfl
    · next hne =>
      exact Json.nestedList?_encode (hconstants _ (if_neg hne)) fun c hc =>
        Constant.ofJson?_toJson (ht.2 c hc)
  simp only [ofJson?, hrecord, hkind, hfieldsRead, hheaderRead, hschema, horigin, hinitRead,
    hconstantsRead, Json.text?, Json.defaulting?_some, Option.bind_eq_bind, Option.bind_some]
  rfl

theorem legible (t : RecordType) : t.toJson.Legible := by
  have hfields (fs : List Field) : (Json.arr (fs.map Field.toJson)).Legible :=
    Json.legible_arr (List.forall_mem_map.2 fun f _ => f.legible)
  refine Json.legible_present ?_
  simp only [List.forall_mem_cons]
  refine ⟨?name, ?kind, ?fields, ?header, ?schema, ?origin, ?init, ?constants,
    fun _ h => absurd h List.not_mem_nil⟩
  case name | kind | origin =>
    rintro _ ⟨⟩
    exact Json.legible_str _
  case fields =>
    rintro _ ⟨⟩
    exact hfields t.fields
  case header => exact Json.legible_map fun e _ => e.legible
  case schema => exact Json.legible_map fun s _ => Json.legible_str s
  case init => exact Json.legible_map fun params _ => hfields params
  case constants =>
    intro j hj
    split at hj
    · cases hj
    · cases hj
      exact Json.legible_arr (List.forall_mem_map.2 fun c _ => c.legible)

end RecordType

/-! ## All forms -/

/--
Expressions, field types and record types are read back from their JSON forms to any depth that the
forms do not exceed, and some depth is enough for each. The slots of values come back empty.
-/
theorem jsonForms_readBack (d : Nat) :
    (∀ e : Expr, e.toJson.readable d = true → Expr.ofJson? d e.toJson = some e)
      ∧ (∀ t : FieldType, t.Describable → t.toJson.readable d = true →
        FieldType.ofJson? d t.toJson = some t)
      ∧ (∀ t : RecordType, t.Describable → t.toJson.readable d = true →
        RecordType.ofJson? d t.toJson = some t.withoutValues)
      ∧ (∀ e : Expr, e.toJson.Legible) ∧ (∀ t : FieldType, t.toJson.Legible)
      ∧ ∀ t : RecordType, t.toJson.Legible :=
  ⟨fun _ => Expr.ofJson?_toJson, fun _ ht => FieldType.ofJson?_toJson ht,
    fun _ ht => RecordType.ofJson?_toJson ht, Expr.legible, FieldType.legible, RecordType.legible⟩

/-- Evaluated slots of each kind, literals beyond 64 bits, a literal `null`, and no parameters. -/
def describedSample : RecordType where
  name := "Vault"
  kind := .contract
  fields :=
    [{ name := "balance", type := .int .coins, default := some (.int 9223372036854775808),
       value := some (.int 9223372036854775808) },
     { name := "limits", type := .map (.int (.uint 256)) (.optional (.bits 65535)),
       default := some .null, value := some .null }]
  header := some (.binary .bitOr (.int 4096) (.const "base"))
  headerValue := some 4097
  init := some []
  constants :=
    [{ name := "base", type := .int (.int 257), expr := .neg (.int (-1)), value := some (.int 1) }]

theorem describable_sample : describedSample.Describable := by
  refine ⟨?_, ?_⟩
  · simp only [RecordType.allFields, describedSample, Option.getD_some, List.append_nil,
      List.forall_mem_cons]
    exact ⟨⟨"coins", rfl⟩, ⟨⟨"uint256", by decide⟩, le_rfl⟩, fun _ h => absurd h List.not_mem_nil⟩
  · simp only [describedSample, List.forall_mem_singleton]
    exact ⟨"int257", by decide⟩

theorem jsonForms_readBack_sample :
    (Expr.neg (.int 18446744073709551616)).toJson.readable Json.maxDepth = true
      ∧ Expr.ofJson? Json.maxDepth (Expr.neg (.int 18446744073709551616)).toJson
        = some (.neg (.int 18446744073709551616))
      ∧ (FieldType.optional (.int .coins)).Describable
      ∧ (FieldType.optional (.int .coins)).toJson.readable Json.maxDepth = true
      ∧ FieldType.ofJson? Json.maxDepth (FieldType.optional (.int .coins)).toJson
        = some (.optional (.int .coins))
      ∧ describedSample.Describable ∧ describedSample.toJson.readable Json.maxDepth = true
      ∧ RecordType.ofJson? Json.maxDepth describedSample.toJson
        = some describedSample.withoutValues := by
  have hexpr : (Expr.neg (.int 18446744073709551616)).toJson.readable Json.maxDepth = true := by
    decide
  have htype : (FieldType.optional (.int .coins)).Describable := ⟨"coins", rfl⟩
  have hread : (FieldType.optional (.int .coins)).toJson.readable Json.maxDepth = true := by decide
  have hrecord : describedSample.toJson.readable Json.maxDepth = true := by decide
  obtain ⟨exprs, types, records, -⟩ := jsonForms_readBack Json.maxDepth
  exact ⟨hexpr, exprs _ hexpr, htype, hread, types _ htype hread, describable_sample, hrecord,
    records _ describable_sample hrecord⟩

end CellPack
