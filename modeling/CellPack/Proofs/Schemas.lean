import Mathlib
import CellPack.Proofs.Uncached
import CellPack.Signature
/-!
# Schemas

A schema writes records in place out with their fields. If no record type contains itself, the bound
on the depth of this is never met, so each record is written out by what is said of its fields
(`TypeStore.schemaText_record`). A schema depends on nothing of a store but names and fields
(`SameFields.fieldsSchema`).
-/

namespace CellPack

namespace FieldType

/-- Only a record in place is written out. -/
theorem schemaText_congr {type : FieldType} {contained contained' : String → String}
    (h : ∀ name, type = .record name → contained name = contained' name) :
    type.schemaText contained = type.schemaText contained' := by
  have hplain (type : FieldType) (hnot : ∀ name, type ≠ .record name) :
      type.schemaText contained = type.schemaText contained' := by
    induction type with
    | optional inner ih =>
      cases inner with
      | record name => rfl
      | _ => exact congrArg ("Maybe " ++ ·) (ih nofun)
    | record name => exact absurd rfl (hnot name)
    | _ => rfl
  by_cases hrecord : ∃ name, type = .record name
  · obtain ⟨name, rfl⟩ := hrecord
    exact h name rfl
  · exact hplain type fun name htype => hrecord ⟨name, htype⟩

end FieldType

namespace TypeStore

variable {s s' : TypeStore} {path : List String} {name : String}

/-! ## Depth -/

theorem signatureText_undeclared (h : s.get? name = none) (n : Nat) :
    s.signatureText n name = name := by
  cases n with
  | zero => rfl
  | succ n => rw [signatureText, h]

/-- Below types that contain each other, more depth than there are other types is not made use of. -/
theorem signatureText_of_le (hacyclic : s.Acyclic) (n : Nat) :
    ∀ {path name}, (path ++ [name]).IsChain s.Embeds → s.unvisited path ≤ n →
      ∀ m, n ≤ m → s.signatureText m name = s.signatureText n name := by
  induction n with
  | zero =>
    intro path name hchain hn m _
    cases hget : s.get? name with
    | none => rw [signatureText_undeclared hget, signatureText_undeclared hget]
    | some t =>
      have hlt := unvisited_concat_lt (contains_of_get? hget) (hacyclic.not_mem hchain)
      omega
  | succ n ih =>
    intro path name hchain hn m hm
    obtain ⟨m, rfl⟩ := Nat.exists_eq_add_of_le' (Nat.one_le_of_lt hm)
    cases hget : s.get? name with
    | none => rw [signatureText_undeclared hget, signatureText_undeclared hget]
    | some t =>
      have hlt := unvisited_concat_lt (contains_of_get? hget) (hacyclic.not_mem hchain)
      -- the records in place are one level deeper, below this type as well
      have hfields : t.fields.map (fun f => f.name ++ ":" ++ f.type.schemaText (s.signatureText m)) =
          t.fields.map fun f => f.name ++ ":" ++ f.type.schemaText (s.signatureText n) := by
        refine List.map_congr_left fun f hf => congrArg _ ?_
        refine FieldType.schemaText_congr fun b htype => ?_
        exact ih (chain_concat hchain ⟨t, hget, f, hf, htype⟩) (by omega) m (by omega)
      simp only [signatureText, hget, hfields]

/-- A record in place is written out with its fields, all of which are written out themselves. -/
theorem schemaText_record (hacyclic : s.Acyclic) (name : String) :
    s.schemaText (.record name) =
      match s.get? name with
      | none => name
      | some t =>
        name ++ "\x7b"
          ++ String.intercalate "," (t.fields.map fun f => f.name ++ ":" ++ s.schemaText f.type)
          ++ "\x7d" := by
  have hdeeper := signatureText_of_le hacyclic s.size (List.isChain_singleton name)
    s.unvisited_nil_le (s.size + 1) (Nat.le_succ _)
  change s.signatureText s.size name = _
  rw [← hdeeper, signatureText]
  rfl

/-! ## Names and fields -/

/-- Two stores have as many record types, and the same fields under each name. -/
structure SameFields (s s' : TypeStore) : Prop where
  size : s.size = s'.size
  fields : ∀ name, (s.get? name).map (·.fields) = (s'.get? name).map (·.fields)

theorem SameFields.signatureText (h : SameFields s s') (n : Nat) :
    s.signatureText n = s'.signatureText n := by
  induction n with
  | zero => rfl
  | succ n ih =>
    funext name
    have hfields := h.fields name
    cases hget : s.get? name with
    | none =>
      rw [hget, Option.map_none, eq_comm, Option.map_eq_none_iff] at hfields
      rw [signatureText_undeclared hget, signatureText_undeclared hfields]
    | some t =>
      rw [hget, Option.map_some, eq_comm, Option.map_eq_some_iff] at hfields
      obtain ⟨t', hget', hsame⟩ := hfields
      simp only [TypeStore.signatureText, hget, hget', hsame, ih]

theorem SameFields.fieldsSchema (h : SameFields s s') {t t' : RecordType} (ht : t.fields = t'.fields) :
    s.fieldsSchema t = s'.fieldsSchema t' := by
  unfold TypeStore.fieldsSchema TypeStore.schemaText
  rw [h.signatureText, h.size, ht]

/-- The schema of a message depends on nothing else, unless it is given. -/
theorem SameFields.messageSchema (h : SameFields s s') {t t' : RecordType} (hname : t.name = t'.name)
    (ht : t.fields = t'.fields) (hschema : t.schema = t'.schema) :
    s.messageSchema t = s'.messageSchema t' := by
  unfold TypeStore.messageSchema
  rw [hname, hschema, h.fieldsSchema ht]

end TypeStore
end CellPack
