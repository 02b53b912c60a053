import Mathlib
import CellPack.Procedure.Constants
import CellPack.Procedure.Contract
import CellPack.Procedure.Records
/-!
# Names of procedures

The name of a procedure starts with the name of its type between two dollar signs. Types and
constants without dollar signs in their names have procedures of different names.
-/

namespace CellPack.ProcName

theorem append_sep_inj {a a' b b' : List Char} (h : '$' ∉ a) (h' : '$' ∉ a')
    (heq : a ++ '$' :: b = a' ++ '$' :: b') : a = a' ∧ b = b' := by
  have htake : ∀ {a : List Char} (b : List Char), '$' ∉ a →
      (a ++ '$' :: b).takeWhile (· ≠ '$') = a := by
    intro a b ha
    rw [List.takeWhile_append_of_pos]
    · simp
    · intro c hc
      simpa using fun he : c = '$' => ha (he ▸ hc)
  have hsame : a = a' := by rw [← htake b h, heq, htake b' h']
  subst hsame
  exact ⟨rfl, List.cons_inj_right _ |>.1 (List.append_cancel_left heq)⟩

theorem toList_ofType (type role : String) :
    (ofType type role).toList = '$' :: (type.toList ++ '$' :: '_' :: role.toList) := by
  simp [ofType, String.toList_append]

theorem toList_ofType_initType (contract role : String) :
    (ofType (initType contract) role).toList =
      '$' :: (contract.toList ++ '$' :: ("init$_".toList ++ role.toList)) := by
  simp [ofType, initType, String.toList_append]

/-- The name tells the type and the role of the procedure. -/
theorem ofType_inj {type type' role role' : String} (h : '$' ∉ type.toList)
    (h' : '$' ∉ type'.toList) (heq : ofType type role = ofType type' role') :
    type = type' ∧ role = role' := by
  have hchars := congrArg String.toList heq
  rw [toList_ofType, toList_ofType] at hchars
  obtain ⟨htype, hrole⟩ := append_sep_inj h h' (List.cons_inj_right _ |>.1 hchars)
  exact ⟨String.toList_inj.1 htype, String.toList_inj.1 (List.cons_inj_right _ |>.1 hrole)⟩

/-- The parameters of a contract are told apart from all types. -/
theorem ofType_ne_ofType_initType {type contract role role' : String} (h : '$' ∉ type.toList)
    (h' : '$' ∉ contract.toList) : ofType type role ≠ ofType (initType contract) role' := by
  intro heq
  have hchars := congrArg String.toList heq
  rw [toList_ofType, toList_ofType_initType] at hchars
  obtain ⟨-, hrole⟩ := append_sep_inj h h' (List.cons_inj_right _ |>.1 hchars)
  cases (List.cons.inj hrole).1

/-- A name among the parameters of contracts tells the contract and the role. -/
theorem ofType_initType_inj {contract contract' role role' : String} (h : '$' ∉ contract.toList)
    (h' : '$' ∉ contract'.toList)
    (heq : ofType (initType contract) role = ofType (initType contract') role') :
    contract = contract' ∧ role = role' := by
  have hchars := congrArg String.toList heq
  rw [toList_ofType_initType, toList_ofType_initType] at hchars
  obtain ⟨htype, hrole⟩ := append_sep_inj h h' (List.cons_inj_right _ |>.1 hchars)
  exact ⟨String.toList_inj.1 htype, String.toList_inj.1 (List.append_cancel_left hrole)⟩

/-- A free-standing constant is told apart from everything of a type. -/
theorem ofType_ne_constant {type role name : String} (h : '$' ∉ name.toList) :
    ofType type role ≠ constant name := by
  intro heq
  have hchars := congrArg String.toList heq
  rw [toList_ofType, constant, String.toList_append] at hchars
  have hmem : '$' ∈ "const_".toList ++ name.toList := by
    have : "$const_".toList = '$' :: "const_".toList := rfl
    rw [this, List.cons_append] at hchars
    rw [← (List.cons.inj hchars).2]
    simp
  rcases List.mem_append.1 hmem with hmem | hmem
  · revert hmem
    decide
  · exact h hmem

/-- The name of a procedure of a type starts with a dollar sign. -/
theorem ofType_ne_of_head {type role name : String} (h : name.toList.head? ≠ some '$') :
    ofType type role ≠ name := by
  intro heq
  rw [← heq, toList_ofType] at h
  exact h rfl

end CellPack.ProcName
