import Mathlib
import CellPack.Procedure.ValueType
import CellPack.Proofs.Coverage
import CellPack.Proofs.Requests
import CellPack.Proofs.Schemas
/-!
# Expansions of record types

Schemas, tensors and layouts follow records in place by name, so nothing gets smaller on the way but
the position in the dependency order. `Unfolds` is such a recursion without any bound on its depth.
One that asks for nothing but dependencies ends on every store that can be ordered
(`Recursion.unfolds`). The main result is `TypeStore.expansions_end`: the three recursions end with
what the bounded definitions give, and never have more names open in each other than there are
record types.
-/

namespace CellPack

variable {ρ τ : Type}

/-! ## Recursions through names -/

/-- The result follows from answers to finitely many questions, whatever other answers would be. -/
def FollowsFrom (known : String → ρ → Prop) (f : (String → ρ) → τ) (r : τ) : Prop :=
  ∃ (asked : List String) (answer : String → ρ), (∀ b ∈ asked, known b (answer b))
    ∧ ∀ answer', (∀ b ∈ asked, answer' b = answer b) → f answer' = r

/-- The recursion ends for a name with a result, with at most `n` names open in each other. -/
def Unfolds (step : (String → ρ) → String → ρ) : Nat → String → ρ → Prop
  | 0, _, _ => False
  | n + 1, name, r => FollowsFrom (Unfolds step n) (fun answer => step answer name) r

section
variable {known known' : String → ρ → Prop} {f : (String → ρ) → τ} {r r' : τ}

theorem FollowsFrom.mono (h : FollowsFrom known f r) (hsub : ∀ b x, known b x → known' b x) :
    FollowsFrom known' f r := by
  obtain ⟨asked, answer, hknown, hf⟩ := h
  exact ⟨asked, answer, fun b hb => hsub b _ (hknown b hb), hf⟩

theorem FollowsFrom.unique (h : FollowsFrom known f r) (h' : FollowsFrom known' f r')
    (hknown : ∀ b x x', known b x → known' b x' → x = x') : r = r' := by
  obtain ⟨asked, answer, hanswer, hf⟩ := h
  obtain ⟨asked', answer', hanswer', hf'⟩ := h'
  -- answers for both sets of questions, which agree where both ask
  let both (b : String) : ρ := if b ∈ asked then answer b else answer' b
  have hboth : f both = r := hf both fun b hb => if_pos hb
  have hboth' : f both = r' := by
    refine hf' both fun b hb' => ?_
    by_cases hb : b ∈ asked
    · exact (if_pos hb).trans (hknown b _ _ (hanswer b hb) (hanswer' b hb'))
    · exact if_neg hb
  exact hboth.symm.trans hboth'

end

section
variable {step : (String → ρ) → String → ρ} {n m : Nat} {name : String} {r r' : ρ}

theorem Unfolds.unique (h : Unfolds step n name r) (h' : Unfolds step m name r') : r = r' := by
  induction n generalizing m name r r' with
  | zero => exact h.elim
  | succ n ih =>
    cases m with
    | zero => exact h'.elim
    | succ m => exact FollowsFrom.unique h h' fun b x x' hx hx' => ih hx hx'

theorem Unfolds.mono (h : Unfolds step n name r) (hnm : n ≤ m) : Unfolds step m name r := by
  induction n generalizing m name r with
  | zero => exact h.elim
  | succ n ih =>
    obtain ⟨m, rfl⟩ := Nat.exists_eq_add_of_le' (Nat.one_le_of_lt hnm)
    exact FollowsFrom.mono h fun b x hx => ih hx (by omega)

end

/-! ## What the recursions ask for -/

/-- Only a record in place is a tensor. -/
theorem FieldType.codeType_congr {type : FieldType} {tensor tensor' : String → String}
    (h : ∀ name, type = .record name → tensor name = tensor' name) :
    type.codeType tensor = type.codeType tensor' := by
  have hplain (type : FieldType) (hnot : ∀ name, type ≠ .record name) :
      type.codeType tensor = type.codeType tensor' := by
    induction type with
    | optional inner ih =>
      cases inner with
      | record name => rfl
      | _ => exact ih nofun
    | record name => exact absurd rfl (hnot name)
    | _ => rfl
  by_cases hrecord : ∃ name, type = .record name
  · obtain ⟨name, rfl⟩ := hrecord
    exact h name rfl
  · exact hplain type fun name htype => hrecord ⟨name, htype⟩

namespace TypeStore

variable {s : TypeStore} {order : List String} {t : RecordType} {name b : String}

theorem Ordered.idxOf_lt_size (h : s.Ordered order) (hname : s.contains name = true) :
    order.idxOf name < s.size := by
  have hmem : name ∈ order := h.perm.mem_iff.2 (by simpa [contains] using hname)
  have hlength : order.length = s.size := by rw [h.perm.length_eq, List.length_map, size]
  exact hlength ▸ List.idxOf_lt_length_iff.2 hmem

/--
A recursion that only asks for what a record type depends on, and the same recursion cut off: `cut n`
has at most `n` names open in each other.
-/
structure Recursion (s : TypeStore) (step : (String → ρ) → String → ρ) (cut : Nat → String → ρ) :
    Prop where
  asks : ∀ name answer answer', (∀ b, s.DependsOn name b → answer b = answer' b) →
    step answer name = step answer' name
  deeper : ∀ n name, cut (n + 1) name = step (cut n) name

namespace Recursion

variable {step : (String → ρ) → String → ρ} {cut : Nat → String → ρ}

/-- The position of a name bounds how many names are open in it. -/
theorem unfolds (h : Recursion s step cut) (hord : s.Ordered order) {n : Nat}
    (hn : order.idxOf name < n) : Unfolds step n name (cut n name) := by
  induction n generalizing name with
  | zero => omega
  | succ n ih =>
    refine ⟨s.dependencies name, cut n, fun b hb => ih ?_, fun answer hanswer => ?_⟩
    · have hlt := hord.behind name b ((mem_dependencies name b).1 hb)
      omega
    · rw [h.deeper]
      exact h.asks name _ _ fun b hb => hanswer b ((mem_dependencies name b).2 hb)

/-- A larger bound changes nothing. -/
theorem cut_eq (h : Recursion s step cut) (hord : s.Ordered order) (hname : s.contains name = true)
    {n : Nat} (hn : s.size ≤ n) : cut n name = cut s.size name := by
  have hlt := hord.idxOf_lt_size hname
  exact (h.unfolds hord (hlt.trans_le hn)).unique (h.unfolds hord hlt)

/-- What asks for declared names only has one result, and has it at this depth. -/
theorem followsFrom_iff (h : Recursion s step cut) (hord : s.Ordered order)
    {f : (String → ρ) → τ}
    (hasks : ∀ answer answer', (∀ b, s.contains b = true → answer b = answer' b) →
      f answer = f answer') (r : τ) :
    FollowsFrom (Unfolds step s.size) f r ↔ r = f (cut s.size) := by
  have hf : FollowsFrom (Unfolds step s.size) f (f (cut s.size)) := by
    refine ⟨s.types.map (·.name), cut s.size, fun b hb => ?_, fun answer hanswer => ?_⟩
    · exact h.unfolds hord (hord.idxOf_lt_size (by simpa [contains] using hb))
    · exact hasks _ _ fun b hb => hanswer b (by simpa [contains] using hb)
  refine ⟨fun hr => ?_, fun hr => hr ▸ hf⟩
  exact hr.unique hf fun b x x' hx hx' => hx.unique hx'

end Recursion

/-! ## Schemas -/

/-- A record written out with its fields, where `contained` writes out the records in place. -/
def signatureOf (s : TypeStore) (contained : String → String) (name : String) : String :=
  match s.get? name with
  | none => name
  | some t =>
    let fields := t.fields.map fun f => f.name ++ ":" ++ f.type.schemaText contained
    name ++ "\x7b" ++ String.intercalate "," fields ++ "\x7d"

theorem recursion_signature (s : TypeStore) : Recursion s s.signatureOf s.signatureText where
  asks name contained contained' h := by
    unfold signatureOf
    cases hget : s.get? name with
    | none => rfl
    | some t =>
      have hfields : (t.fields.map fun f => f.name ++ ":" ++ f.type.schemaText contained) =
          t.fields.map fun f => f.name ++ ":" ++ f.type.schemaText contained' := by
        refine List.map_congr_left fun f hf => congrArg _ ?_
        refine FieldType.schemaText_congr fun b htype => h b ?_
        exact Embeds.dependsOn ⟨t, hget, f, hf, htype⟩
      simp only [hfields]
  deeper _ _ := rfl

/-! ## Tensors -/

/-- The tensor of a record, where `tensor` gives those of the records in place. -/
def tensorOf (s : TypeStore) (tensor : String → String) (name : String) : String :=
  match s.get? name with
  | some t => tensorText (t.fields.map fun f => f.type.codeType tensor)
  | none => "tuple"

theorem recursion_tensor (s : TypeStore) : Recursion s s.tensorOf s.recordTensor where
  asks name tensor tensor' h := by
    unfold tensorOf
    cases hget : s.get? name with
    | none => rfl
    | some t =>
      refine congrArg tensorText (List.map_congr_left fun f hf => ?_)
      refine FieldType.codeType_congr fun b htype => h b ?_
      exact Embeds.dependsOn ⟨t, hget, f, hf, htype⟩
  deeper _ _ := rfl

end TypeStore

/-! ## Layouts -/

namespace LayoutCache

/-- The layout under an id, computed on first request, where `nested` gives those of other types. -/
def requestWith (s : TypeStore) (nested : String → LayoutM Layout) (id : LayoutId) :
    LayoutM Layout := do
  let cache ← get
  match cache.get? id with
  | some l => return l
  | none =>
    if id ∈ cache.inProgress then
      throw (.cyclicDependency ((cache.inProgress.dropWhile (· ≠ id)).map (·.typeName)))
    start id
    let result ← ExceptT.lift (computeLayout s nested id).run
    finish
    match result with
    | .error e => throw e
    | .ok l =>
      keep l id
      return l

theorem ensure_succ (s : TypeStore) (depth : Nat) (id : LayoutId) :
    ensure s (depth + 1) id = requestWith s (fun name => ensure s depth (.full name)) id := by
  conv_lhs => unfold ensure
  rfl

section
variable {s : TypeStore} {nested nested' : String → LayoutM Layout} {id : LayoutId}

theorem eq_of_alike {α : Type} {x y : LayoutM α} (h : Alike Eq x y) : x = y :=
  funext fun c => Prod.ext (h c c rfl).1 (h c c rfl).2

theorem alike_of_eq {α : Type} {x y : LayoutM α} (h : x = y) : Alike Eq x y := by
  rintro c _ rfl
  exact ⟨congrArg (·.1) (congrFun h c), congrArg (·.2) (congrFun h c)⟩

theorem fieldCost_congr {current : LayoutCell} {type : FieldType}
    (h : ∀ name, type = .record name → nested name = nested' name) :
    fieldCost nested current type = fieldCost nested' current type :=
  eq_of_alike (alike_fieldCost current type fun name htype => alike_of_eq (h name htype))

theorem requestWith_congr (h : ∀ name, s.Needs id name → nested name = nested' name) :
    requestWith s nested id = requestWith s nested' id := by
  have hcompute : computeLayout s nested id = computeLayout s nested' id :=
    eq_of_alike (alike_computeLayout (.refl s id) fun name hname => alike_of_eq (h name hname))
  unfold requestWith
  rw [hcompute]

end

open TypeStore in
theorem recursion_full (s : TypeStore) :
    Recursion s (fun nested name => requestWith s nested (.full name))
      fun depth name => ensure s depth (.full name) where
  asks _ _ _ h := requestWith_congr fun b hb => h b (Embeds.dependsOn hb)
  deeper depth name := ensure_succ s depth (.full name)

end LayoutCache

namespace TypeStore

open LayoutCache

variable {s : TypeStore} {order : List String} {t : RecordType}

theorem Resolved.contains_needed (h : s.Resolved) {id : LayoutId} (ht : t ∈ s.types)
    (hid : id.typeName = t.name) {b : String} (hb : s.Needs id b) : s.contains b = true := by
  have hself := get?_of_mem ht
  have hmember {f : Field} (hf : f ∈ t.allFields) (htype : f.type = .record b) :
      s.contains b = true := h.known ht hf b (by rw [htype]; rfl)
  cases id with
  | full name =>
    obtain ⟨t', ht', f, hf, htype⟩ := hb
    obtain rfl : name = t.name := hid
    obtain rfl : t' = t := Option.some.inj (ht'.symm.trans hself)
    exact hmember (List.mem_append_left _ hf) htype
  | init name =>
    obtain ⟨t', ht', f, hf, htype⟩ := hb
    obtain rfl : name = t.name := hid
    obtain rfl : t' = t := Option.some.inj (ht'.symm.trans hself)
    exact hmember (List.mem_append_right _ hf) htype
  | bounced name =>
    obtain rfl : b = name := hb
    obtain rfl : b = t.name := hid
    exact contains_of_get? hself

/-- A struct that holds itself behind an optional value, another one in a map, and one in place. -/
def tangledTree : RecordType where
  name := "Tree"
  kind := .struct
  fields :=
    [{ name := "parent", type := .optional (.record "Tree") },
      { name := "forests", type := .map (.int .widest) (.record "Forest") },
      { name := "leaf", type := .record "Leaf" }]

/-- It and the struct in the map hold each other. -/
def tangledStore : TypeStore where
  types :=
    [tangledTree,
     { name := "Forest", kind := .struct
       fields :=
         [{ name := "first", type := .optional (.record "Tree") },
           { name := "spare", type := .record "Leaf" }] },
     { name := "Leaf", kind := .struct, fields := [{ name := "x", type := .bool }] }]
  types_distinct := by decide

end TypeStore
end CellPack
