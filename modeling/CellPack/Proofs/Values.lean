import Mathlib
import CellPack.Layout.Lowering
import CellPack.Proofs.Contents
import CellPack.TypeStore.Basic
/-!
# Values of field types

`Conforms` says which values a field of a type can be written from. Writing keeps less than the
value: the declared fields of each record, in order, and as many bits of a bit string as its type
has. `norm` is what is kept, and `Exact` says which values are kept as they are.
-/

namespace CellPack

/-- The names and types of the fields of a record. -/
abbrev Shape := List (String × FieldType)

/-- The names and types of these fields. -/
def Field.shape (fields : List Field) : Shape := fields.map fun f => (f.name, f.type)

/-- The fields of a record type. -/
def TypeStore.shape (s : TypeStore) (name : String) : Option Shape :=
  (s.get? name).map fun t => Field.shape t.fields

namespace Value

/-- The value can be written as a field of the type. -/
inductive Conforms (shape : String → Option Shape) : FieldType → Value → Prop where
  | int {format : IntFormat} {v : Int} (h : format.fits v = true) :
    Conforms shape (.int format) (.int v)
  | bool (b : Bool) : Conforms shape .bool (.bool b)
  | address (a : Address) : Conforms shape .address (.address a)
  | bits {n : Nat} {bytes : List UInt8} (h : n ≤ 8 * bytes.length) :
    Conforms shape (.bits n) (.bits bytes)
  | cell (c : Cell) : Conforms shape .cell (.cell c)
  | slice (c : Cell) : Conforms shape .slice (.cell c)
  | builder (c : Cell) : Conforms shape .builder (.cell c)
  | string (s : String) : Conforms shape .string (.string s)
  | emptyMap (key value : FieldType) : Conforms shape (.map key value) .null
  | map (key value : FieldType) (c : Cell) : Conforms shape (.map key value) (.cell c)
  | absent (type : FieldType) : Conforms shape (.optional type) .null
  | present {type : FieldType} {v : Value} (h : Conforms shape type v) :
    Conforms shape (.optional type) v
  | record {name : String} {declared : Shape} {entries : List (String × Value)}
    (h : shape name = some declared) (present : ∀ d ∈ declared, (entries.lookup d.1).isSome)
    (conform : ∀ d ∈ declared, ∀ v, entries.lookup d.1 = some v → Conforms shape d.2 v) :
    Conforms shape (.record name) (.record entries)

/-- The value conforms to the type, with nothing that writing it would lose. -/
inductive Exact (shape : String → Option Shape) : FieldType → Value → Prop where
  | int {format : IntFormat} {v : Int} (h : format.fits v = true) :
    Exact shape (.int format) (.int v)
  | bool (b : Bool) : Exact shape .bool (.bool b)
  | address (a : Address) : Exact shape .address (.address a)
  | bits {n : Nat} {bytes : List UInt8} (length : bytes.length = (n + 7) / 8)
    (zeros : ∀ b ∈ (Bits.ofBytes bytes).drop n, b = false) : Exact shape (.bits n) (.bits bytes)
  | cell (c : Cell) : Exact shape .cell (.cell c)
  | slice (c : Cell) : Exact shape .slice (.cell c)
  | builder (c : Cell) : Exact shape .builder (.cell c)
  | string (s : String) : Exact shape .string (.string s)
  | emptyMap (key value : FieldType) : Exact shape (.map key value) .null
  | map (key value : FieldType) (c : Cell) : Exact shape (.map key value) (.cell c)
  | absent (type : FieldType) : Exact shape (.optional type) .null
  | present {type : FieldType} {v : Value} (h : Exact shape type v) :
    Exact shape (.optional type) v
  | record {name : String} {declared : Shape} {entries : List (String × Value)}
    (h : shape name = some declared) (names : entries.map (·.1) = declared.map (·.1))
    (exact : ∀ d ∈ declared, ∀ v, entries.lookup d.1 = some v → Exact shape d.2 v) :
    Exact shape (.record name) (.record entries)

/-- The bytes of the bit string that the names of fields lead to. -/
def bytesAt? (v : Value) : List String → Option (List UInt8)
  | field :: path => (v.get? field).bind fun x => x.bytesAt? path
  | [] =>
    match v with
    | bits bytes => some bytes
    | _ => none

/-! ## What writing keeps -/

/-- The first entry of each name, in the order of the names. -/
def pick (names : List String) (entries : List (String × Value)) : List (String × Value) :=
  names.filterMap fun name => (entries.lookup name).map (name, ·)

variable (leaf : FieldType → Value → Value) (shape : String → Option Shape)

mutual
/-- The value with the declared fields of each record in order, and all else as `leaf` gives it. -/
def rebuild : FieldType → Value → Value
  | type, record entries =>
    match type.withoutOptional with
    | .record name =>
      let declared := (shape name).getD []
      record (pick (declared.map (·.1)) (rebuildEntries declared entries))
    | _ => record entries
  | type, v => leaf type v
/-- Entries with the values of the declared ones rebuilt. -/
def rebuildEntries (declared : Shape) : List (String × Value) → List (String × Value)
  | [] => []
  | (name, v) :: rest =>
    let v := match declared.lookup name with
      | some type => rebuild type v
      | none => v
    (name, v) :: rebuildEntries declared rest
end

/-- A bit string of a type with fewer bits is cut to them. -/
def cutBits (type : FieldType) (v : Value) : Value :=
  match type.withoutOptional, v with
  | .bits n, bits bytes => bits (Bits.cut n bytes)
  | _, v => v

/-- What writing keeps of a value. -/
def norm : FieldType → Value → Value := rebuild cutBits shape

end Value

/-! ## Entries by name -/

theorem lookup_of_mem {α : Type} {l : List (String × α)} (h : (l.map (·.1)).Nodup)
    {d : String × α} (hd : d ∈ l) : l.lookup d.1 = some d.2 := by
  induction l with
  | nil => cases hd
  | cons e l ih =>
    rw [List.map_cons, List.nodup_cons] at h
    rcases List.mem_cons.1 hd with rfl | hd
    · exact List.lookup_cons_self
    · have hne : d.1 ≠ e.1 := fun he => h.1 (he ▸ List.mem_map_of_mem hd)
      rw [List.lookup_cons, beq_eq_false_iff_ne.2 hne]
      exact ih h.2 hd

theorem mem_of_lookup {α : Type} {l : List (String × α)} {name : String} {a : α}
    (h : l.lookup name = some a) : (name, a) ∈ l := by
  obtain ⟨before, after, rfl, -⟩ := List.lookup_eq_some_iff.1 h
  simp

theorem exists_lookup {α : Type} {l : List (String × α)} {name : String}
    (h : name ∈ l.map (·.1)) : ∃ a, l.lookup name = some a := by
  obtain ⟨e, he, rfl⟩ := List.mem_map.1 h
  exact Option.isSome_iff_exists.1 (List.lookup_isSome_iff.2 ⟨e, he, beq_self_eq_true _⟩)

namespace Value

/-- Entries of distinct names are picked in their own order. -/
theorem pick_self {entries : List (String × Value)} (h : (entries.map (·.1)).Nodup) :
    pick (entries.map (·.1)) entries = entries := by
  induction entries with
  | nil => rfl
  | cons e entries ih =>
    rw [List.map_cons, List.nodup_cons] at h
    have hrest : pick (entries.map (·.1)) (e :: entries) = pick (entries.map (·.1)) entries := by
      refine List.filterMap_congr fun name hname => ?_
      have hne : name ≠ e.1 := fun he => h.1 (he ▸ hname)
      rw [List.lookup_cons, beq_eq_false_iff_ne.2 hne]
    have hhead : ((e :: entries).lookup e.1).map (e.1, ·) = some e := by
      rw [List.lookup_cons_self]
      rfl
    simp only [pick, List.map_cons, List.filterMap_cons, hhead]
    exact congrArg (e :: ·) (hrest.trans (ih h.2))

variable {shape : String → Option Shape} {type : FieldType} {v : Value} {name : String}
  {declared : Shape} {entries : List (String × Value)}

theorem conforms_record (h : shape name = some declared) :
    Conforms shape (.record name) (.record entries) ↔
      ∀ d ∈ declared, ∃ x, entries.lookup d.1 = some x ∧ Conforms shape d.2 x := by
  constructor
  · rintro ⟨⟩
    rename_i declared' h' present conform
    obtain rfl : declared = declared' := Option.some.inj (h.symm.trans h')
    intro d hd
    obtain ⟨x, hx⟩ := Option.isSome_iff_exists.1 (present d hd)
    exact ⟨x, hx, conform d hd x hx⟩
  · intro hall
    refine .record h (fun d hd => ?_) fun d hd x hx => ?_
    · obtain ⟨x, hx, -⟩ := hall d hd
      exact Option.isSome_iff_exists.2 ⟨x, hx⟩
    · obtain ⟨y, hy, hconf⟩ := hall d hd
      obtain rfl : x = y := Option.some.inj (hx.symm.trans hy)
      exact hconf

theorem Exact.conforms (h : Exact shape type v) : Conforms shape type v := by
  induction h with
  | int h => exact .int h
  | bool b => exact .bool b
  | address a => exact .address a
  | bits length _ => exact .bits (by omega)
  | cell c => exact .cell c
  | slice c => exact .slice c
  | builder c => exact .builder c
  | string s => exact .string s
  | emptyMap key value => exact .emptyMap key value
  | map key value c => exact .map key value c
  | absent type => exact .absent type
  | present _ ih => exact .present ih
  | record h names _ ih =>
    refine .record h (fun d hd => ?_) ih
    refine Option.isSome_iff_exists.2 (exists_lookup ?_)
    rw [names]
    exact List.mem_map_of_mem hd

/-! ## Normal forms -/

theorem lookup_rebuildEntries (leaf : FieldType → Value → Value) (name : String) :
    (rebuildEntries leaf shape declared entries).lookup name =
      (entries.lookup name).map fun v =>
        match declared.lookup name with
        | some type => rebuild leaf shape type v
        | none => v := by
  induction entries with
  | nil => rfl
  | cons e entries ih =>
    obtain ⟨name', v⟩ := e
    rw [rebuildEntries, List.lookup_cons, List.lookup_cons, ih]
    by_cases h : name = name'
    · subst h
      rw [beq_self_eq_true]
      rfl
    · rw [beq_eq_false_iff_ne.2 h]

/-- The value has a field of the name that conforms to its type. -/
def ConformsAt (shape : String → Option Shape) (declared : Shape) (v : Value) (name : String) :
    Prop :=
  ∃ type x, declared.lookup name = some type ∧ v.get? name = some x ∧ x.Conforms shape type

/-- Of distinct names, each belongs to one field. -/
theorem conformsAt_iff (shape : String → Option Shape) (entries : List (String × Value))
    (h : (declared.map (·.1)).Nodup) :
    (∀ name ∈ declared.map (·.1), (record entries).ConformsAt shape declared name) ↔
      ∀ d ∈ declared, ∃ x, entries.lookup d.1 = some x ∧ Conforms shape d.2 x := by
  rw [List.forall_mem_map]
  refine forall₂_congr fun d hd => ⟨?_, ?_⟩
  · rintro ⟨type, x, htype, hx, hc⟩
    obtain rfl : d.2 = type := Option.some.inj ((lookup_of_mem h hd).symm.trans htype)
    exact ⟨x, hx, hc⟩
  · rintro ⟨x, hx, hc⟩
    exact ⟨d.2, x, lookup_of_mem h hd, hx, hc⟩

/-- What writing keeps of the field of a name. -/
def keptField (shape : String → Option Shape) (declared : Shape) (v : Value) (name : String) :
    Option (String × Value) :=
  (v.get? name).map fun x =>
    (name, match declared.lookup name with
      | some type => norm shape type x
      | none => x)

theorem norm_record (h : shape name = some declared) :
    norm shape (.record name) (.record entries) =
      .record ((declared.map (·.1)).filterMap (keptField shape declared (.record entries))) := by
  change Value.record (pick (((shape name).getD []).map (·.1)) _) = _
  rw [h]
  refine congrArg Value.record (List.filterMap_congr fun name _ => ?_)
  rw [Option.getD_some, lookup_rebuildEntries, Option.map_map]
  rfl

theorem norm_optional (type : FieldType) (v : Value) :
    norm shape (.optional type) v = norm shape type v := by
  cases v <;> rfl

theorem norm_null (type : FieldType) : norm shape type .null = .null := by
  change cutBits type .null = .null
  unfold cutBits
  split
  · next h => cases h
  · rfl

theorem norm_cell (type : FieldType) (c : Cell) : norm shape type (.cell c) = .cell c := by
  change cutBits type (.cell c) = .cell c
  unfold cutBits
  split
  · next h => cases h
  · rfl

/-- A value with nothing to lose is kept as it is. -/
theorem Exact.norm_eq
    (hnames : ∀ name declared, shape name = some declared → (declared.map (·.1)).Nodup)
    (h : Exact shape type v) : norm shape type v = v := by
  induction h with
  | bits length zeros => exact congrArg Value.bits (Bits.cut_of_zeros length zeros)
  | absent type => exact norm_null _
  | present _ ih => rw [norm_optional, ih]
  | @record name declared entries h names _ ih =>
    -- the entries of declared names have exact values, which stay as they are
    have hkept : ∀ name ∈ declared.map (·.1), keptField shape declared (.record entries) name =
        (entries.lookup name).map (name, ·) := by
      intro name _
      rw [keptField, get?]
      cases hx : entries.lookup name with
      | none => rfl
      | some x =>
        rw [Option.map_some, Option.map_some]
        split
        · next type htype => rw [ih (name, type) (mem_of_lookup htype) x hx]
        · rfl
    rw [norm_record h, List.filterMap_congr hkept, ← pick, ← names, pick_self]
    rw [names]
    exact hnames name declared h
  | _ => rfl

/-- A record of exactly the declared fields, each with an exact value. -/
theorem exact_record (h : shape name = some declared) (hnames : (declared.map (·.1)).Nodup)
    (names : entries.map (·.1) = declared.map (·.1))
    (exact : ∀ e ∈ entries, ∃ type, declared.lookup e.1 = some type ∧ Exact shape type e.2) :
    Exact shape (.record name) (.record entries) := by
  refine .record h names fun d hd v hv => ?_
  obtain ⟨type, htype, hexact⟩ := exact _ (mem_of_lookup hv)
  obtain rfl : type = d.2 := Option.some.inj (htype.symm.trans (lookup_of_mem hnames hd))
  exact hexact

end Value
end CellPack
