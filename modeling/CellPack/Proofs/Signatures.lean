import Mathlib
import CellPack.Proofs.Coverage
import CellPack.Proofs.Headers
/-!
# Signing a store

Signing fails exactly if two messages have the same header, and names the earliest message that
repeats one (`FirstRepeat`). Otherwise it changes nothing but schemas and headers, each record type
by its kind (`SignedAs`); what it puts in place of an absent header depends on no other schema or
header (`TypeStore.withSignatures_exact`).
-/

namespace CellPack

/-! ## Digits -/

namespace Numeral

/-- The last hexadecimal digits of a number. -/
def hexDigits : Nat → Nat → List Char
  | 0, _ => []
  | width + 1, n => hexDigits width (n / 16) ++ [hexDigit (n % 16)]

/-- A number that has room is written with as many digits as asked for. -/
theorem toList_hex (width : Nat) :
    ∀ n, n < 16 ^ (width + 1) → (hex (width + 1) n).toList = hexDigits (width + 1) n := by
  induction width with
  | zero =>
    intro n hn
    have hlt : n < 16 := by omega
    simp [hex, hexDigits, hexDigit, Nat.toDigits_of_lt_base hlt, Nat.mod_eq_of_lt hlt]
  | succ width ih =>
    intro n hn
    have hdiv : n / 16 < 16 ^ (width + 1) := by
      rw [Nat.pow_succ] at hn
      omega
    rw [hexDigits, ← ih _ hdiv]
    simp only [hex, String.toList_ofList]
    rcases Nat.lt_or_ge n 16 with hlt | hge
    · have hzero : Nat.toDigits 16 (n / 16) = ['0'] := by
        rw [Nat.div_eq_of_lt hlt]
        rfl
      rw [hzero, Nat.toDigits_of_lt_base hlt, Nat.mod_eq_of_lt hlt]
      simp [hexDigit, List.replicate_succ']
    · rw [Nat.toDigits_of_base_le (by decide) hge, List.length_append, List.length_singleton,
        Nat.add_sub_add_right, List.append_assoc]
      rfl

end Numeral

/-- The record type without its schema and its header. -/
def RecordType.unsigned (t : RecordType) : RecordType :=
  { t with schema := none, header := none, headerValue := none }

namespace TypeStore

variable {s s' : TypeStore} {t t' : RecordType}

/-! ## Repeated headers -/

/-- The second one is the earliest message with the header of an earlier one, which is the first. -/
def FirstRepeat (s : TypeStore) (types : List RecordType) (header : UInt32)
    (first second : RecordType) : Prop :=
  ∃ before after, types = before ++ second :: after
    ∧ second.isMessage = true ∧ s.messageHeader second = header
    ∧ before.Pairwise s.OtherHeader
    ∧ first ∈ before
    ∧ ∀ t ∈ before, t.isMessage = true ∧ s.messageHeader t = header ↔ t = first

/-- The messages of some record types by their headers, the last one first. -/
def seenHeaders (s : TypeStore) (ts : List RecordType) : List (UInt32 × String) :=
  ((ts.filter (·.isMessage)).map fun t => (s.messageHeader t, t.name)).reverse

theorem exists_of_lookup {before : List RecordType} {header : UInt32} {name : String}
    (h : (s.seenHeaders before).lookup header = some name) :
    ∃ t ∈ before, t.isMessage = true ∧ s.messageHeader t = header ∧ t.name = name := by
  obtain ⟨front, back, hsplit, -⟩ := List.lookup_eq_some_iff.1 h
  have hseen : (header, name) ∈ s.seenHeaders before := by simp [hsplit]
  obtain ⟨t, ht, heq⟩ := List.mem_map.1 (List.mem_reverse.1 hseen)
  obtain ⟨hmem, hmessage⟩ := List.mem_filter.1 ht
  obtain ⟨rfl, rfl⟩ := Prod.mk.inj heq
  exact ⟨t, hmem, hmessage, rfl, rfl⟩

theorem otherHeader_of_lookup {before : List RecordType}
    (h : (s.seenHeaders before).lookup (s.messageHeader t) = none) :
    ∀ u ∈ before, s.OtherHeader u t := by
  intro u hu hmessage _ heq
  have hmem : (s.messageHeader u, u.name) ∈ s.seenHeaders before :=
    List.mem_reverse.2 (List.mem_map.2 ⟨u, List.mem_filter.2 ⟨hu, hmessage⟩, rfl⟩)
  simpa [heq] using List.lookup_eq_none_iff.1 h _ hmem

/-- The check goes on behind types without a repeated header, and stops at the first one. -/
theorem firstRepeat_of_checkHeaders {e : CompileError} (rest : List RecordType) :
    ∀ before, before.Pairwise s.OtherHeader →
      s.checkHeaders (s.seenHeaders before) rest = .error e →
      ∃ header first second, e = .duplicateHeader header first.name second.name
        ∧ s.FirstRepeat (before ++ rest) header first second := by
  induction rest with
  | nil => exact nofun
  | cons t rest ih =>
    intro before hbefore h
    rw [checkHeaders] at h
    have hnext (hother : ∀ u ∈ before, s.OtherHeader u t) :
        (before ++ [t]).Pairwise s.OtherHeader := by
      refine List.pairwise_append.2 ⟨hbefore, List.pairwise_singleton _ _, fun u hu v hv => ?_⟩
      rw [List.mem_singleton.1 hv]
      exact hother u hu
    rw [List.append_cons]
    by_cases hmessage : t.isMessage = true
    · rw [if_pos hmessage] at h
      dsimp only at h
      split at h
      · next first hlookup =>
        cases h
        obtain ⟨u, hu, humessage, hheader, rfl⟩ := exists_of_lookup hlookup
        refine ⟨_, u, t, rfl, before, rest, by simp, hmessage, rfl, hbefore, hu, fun v hv => ?_⟩
        constructor
        · rintro ⟨hvmessage, hvheader⟩
          by_contra hne
          exact hbefore.forall hv hu hne hvmessage humessage (hvheader.trans hheader.symm)
        · rintro rfl
          exact ⟨humessage, hheader⟩
      · next hlookup =>
        refine ih (before ++ [t]) (hnext (otherHeader_of_lookup hlookup)) ?_
        simpa [seenHeaders, hmessage] using h
    · rw [if_neg hmessage] at h
      refine ih (before ++ [t]) (hnext fun u _ _ hm => absurd hm hmessage) ?_
      simpa [seenHeaders, hmessage] using h

theorem firstRepeat_of_withSignatures {e : CompileError} (h : s.withSignatures = .error e) :
    ∃ header first second, e = .duplicateHeader header first.name second.name
      ∧ s.FirstRepeat s.types header first second := by
  rcases bind_eq_error.1 h with hcheck | ⟨⟨⟩, -, h⟩
  · exact firstRepeat_of_checkHeaders s.types [] .nil hcheck
  · cases h

/-! ## Signed types -/

/-- The second record type is the first one with the schema and the header of its kind. -/
structure SignedAs (s : TypeStore) (t t' : RecordType) : Prop where
  rest : t' = { t with schema := t'.schema, headerValue := t'.headerValue }
  /-- Behind the first word of its schema is the header of a message. -/
  message : t.kind = .message → t'.headerValue = some (s.messageHeader t)
    ∧ ∃ first rest, (s.messageSchema t).toList = first ++ rest
      ∧ ' ' ∉ first ∧ (∀ c ∈ rest.head?, c = ' ')
      ∧ t'.schema = some (String.ofList
          (first ++ '#' :: Numeral.hexDigits 8 (s.messageHeader t).toNat ++ rest))
  struct : t.kind = .struct → t'.headerValue = none ∧ t'.schema = some (s.structSchema t)
  others : t.kind = .contract ∨ t.kind = .trait → t'.headerValue = none ∧ t'.schema = none

theorem schemaWithHeader_eq (schema : String) (header : UInt32) :
    ∃ first rest, schema.toList = first ++ rest ∧ ' ' ∉ first ∧ (∀ c ∈ rest.head?, c = ' ')
      ∧ schemaWithHeader schema header =
        String.ofList (first ++ '#' :: Numeral.hexDigits 8 header.toNat ++ rest) := by
  refine ⟨schema.toList.takeWhile (· ≠ ' '), schema.toList.dropWhile (· ≠ ' '),
    List.takeWhile_append_dropWhile.symm, fun hmem => ?_, fun c hc => ?_, ?_⟩
  · simpa using List.mem_takeWhile_imp hmem
  · have hhead := List.head?_dropWhile_not (· ≠ ' ') schema.toList
    rw [Option.mem_def.1 hc] at hhead
    simpa using hhead
  · rw [schemaWithHeader, Numeral.toList_hex 7 _ header.toNat_lt]

theorem signedAs_signed (s : TypeStore) (t : RecordType) : s.SignedAs t (s.signed t) where
  rest := by
    unfold signed
    split <;> rfl
  message hkind := by
    obtain ⟨first, rest, hsplit, hfirst, hrest, hschema⟩ :=
      schemaWithHeader_eq (s.messageSchema t) (s.messageHeader t)
    simp only [signed, hkind]
    exact ⟨trivial, first, rest, hsplit, hfirst, hrest, congrArg some hschema⟩
  struct hkind := by simp only [signed, hkind, and_self]
  others hkind := by rcases hkind with hkind | hkind <;> simp only [signed, hkind, and_self]

/-! ## Independence -/

theorem sameFields_of_unsigned
    (h : s.types.map RecordType.unsigned = s'.types.map RecordType.unsigned) : SameFields s s' := by
  refine ⟨?_, fun name => ?_⟩
  · simpa [size] using congrArg List.length h
  · have hfind := congrArg (fun ts => (ts.find? (·.name = name)).map (·.fields)) h
    simp only [List.find?_map, Option.map_map] at hfind
    exact hfind

/-- The header that the schema of a message gives depends on no other header or schema. -/
theorem implicitHeader_congr
    (h : s.types.map RecordType.unsigned = s'.types.map RecordType.unsigned) (ht : t ∈ s.types)
    (ht' : t' ∈ s'.types) (hname : t.name = t'.name) (hschema : t.schema = t'.schema) :
    implicitHeader (s.messageSchema t) = implicitHeader (s'.messageSchema t') := by
  have hsame := sameFields_of_unsigned h
  have hfields := hsame.fields t.name
  rw [get?_of_mem ht, hname, get?_of_mem ht'] at hfields
  rw [hsame.messageSchema hname (Option.some.inj hfields) hschema]

/--
In a store where no record type contains itself, a schema writes each record in place out with its
fields. Signing succeeds exactly if all messages have different headers, and otherwise names the
earliest message that repeats one. What it gives is the same store but for schemas and headers, each
record type by its kind. The header of a message without one of its own does not change with other
schemas and headers.
-/
theorem withSignatures_exact (hacyclic : s.Acyclic) :
    (∀ name, s.schemaText (.record name) =
        match s.get? name with
        | none => name
        | some t =>
          name ++ "\x7b"
            ++ String.intercalate "," (t.fields.map fun f => f.name ++ ":" ++ s.schemaText f.type)
            ++ "\x7d")
      ∧ ((∃ s', s.withSignatures = .ok s') ↔ s.types.Pairwise s.OtherHeader)
      ∧ (∀ e, s.withSignatures = .error e →
        ∃ header first second, e = .duplicateHeader header first.name second.name
          ∧ s.FirstRepeat s.types header first second)
      ∧ (∀ s', s.withSignatures = .ok s' →
        s'.constants = s.constants ∧ s'.nativeSources = s.nativeSources
          ∧ List.Forall₂ s.SignedAs s.types s'.types)
      ∧ ∀ s' : TypeStore, s.types.map RecordType.unsigned = s'.types.map RecordType.unsigned →
        ∀ t ∈ s.types, ∀ t' ∈ s'.types, t.name = t'.name → t.schema = t'.schema →
          implicitHeader (s.messageSchema t) = implicitHeader (s'.messageSchema t') := by
  refine ⟨schemaText_record hacyclic, exists_withSignatures_iff, ?_, fun s' h => ?_, ?_⟩
  · exact fun e he => firstRepeat_of_withSignatures he
  · obtain ⟨⟨⟩, -, hs'⟩ := bind_eq_ok.1 h
    cases hs'
    refine ⟨rfl, rfl, List.forall₂_map_right_iff.2 ?_⟩
    exact List.forall₂_same.2 fun t _ => signedAs_signed s t
  · exact fun s' h t ht t' ht' hname hschema => implicitHeader_congr h ht ht' hname hschema

end TypeStore

/-- A record in place, a message with a header and two without, one of them with a schema of its own. -/
def signedStore : TypeStore where
  types :=
    [{ name := "Point", kind := .struct
       fields := [{ name := "x", type := .int (.int 257) }, { name := "y", type := .bits 12 }] },
     { name := "Ping", kind := .message, headerValue := some 7
       fields := [{ name := "at", type := .record "Point" }] },
     { name := "Pong", kind := .message
       fields := [{ name := "from", type := .optional (.record "Ping") }] },
     { name := "Halt", kind := .message, schema := some "halt" },
     { name := "Wallet", kind := .contract
       fields := [{ name := "owner", type := .address }] }]
  types_distinct := by decide

namespace TypeStore

/-- All messages of the store get a header and a schema with it. -/
theorem withSignatures_exact_sample : ∃ s', signedStore.withSignatures = .ok s'
    ∧ List.Forall₂ signedStore.SignedAs signedStore.types s'.types := by
  have horder : signedStore.dependencyOrder =
      .ok ["Point", "Ping", "Pong", "Halt", "Wallet"] := by decide +kernel
  have hacyclic : signedStore.Acyclic := (dependencyOrder_ok horder).2.embeds_acyclic
  have hok : signedStore.withSignatures.isOk = true := by decide +kernel
  obtain ⟨s', hs'⟩ := exists_of_isOk hok
  obtain ⟨-, -, -, hsigned, -⟩ := withSignatures_exact hacyclic
  exact ⟨s', hs', (hsigned s' hs').2.2⟩

end TypeStore
end CellPack
