import Mathlib
import CellPack.Proofs.Layouts
import CellPack.Proofs.Transparency
/-!
# What a layout depends on

A layout depends on the record types that are in it, and on whether the names in their fields are
declared (`LayoutCache.request_local`). Every other change of a store leaves it as it is, be it found
or refused.
-/

namespace CellPack

open Relation

namespace TypeStore

variable {s s' : TypeStore} {path : List String} {name : String} {id : LayoutId}

/-- The layout under the id has the record type in it, in place at any depth. -/
def Involves (s : TypeStore) (id : LayoutId) (name : String) : Prop :=
  ∃ first, s.Needs id first ∧ ReflTransGen s.Embeds first name

/-- What a layout needs, and what that contains, is all that it involves. -/
theorem Involves.of_closed {R : String → Prop} (h : s.Involves id name)
    (hid : ∀ a, s.Needs id a → R a) (hclosed : ∀ a b, R a → s.Embeds a b → R b) :
    R name := by
  obtain ⟨first, hfirst, hreach⟩ := h
  induction hreach with
  | refl => exact hid first hfirst
  | tail _ hab ih => exact hclosed _ _ ih hab

/-- Below the same types, stores that agree on a type and all that it contains lay it out alike. -/
theorem layoutBelow_congr (h : ∀ b, ReflTransGen s.Embeds name b → s.SameInputs s' (.full b)) :
    s.layoutBelow path name = s'.layoutBelow path name := by
  induction path, name using layoutBelow.induct s with
  | case1 path name hmem => rw [layoutBelow_of_mem hmem, layoutBelow_of_mem hmem]
  | case2 path name hpath hname ih =>
    rw [layoutBelow_of_not_mem hpath, layoutBelow_of_not_mem hpath]
    exact layoutWith_congr (h name .refl) fun b hb => ih b fun x hx => h x (.head hb hx)
  | case3 path name hpath hname =>
    rw [layoutBelow_of_not_mem hpath, layoutBelow_of_not_mem hpath]
    refine layoutWith_congr (h name .refl) fun b hb => ?_
    obtain ⟨t, ht, -⟩ := hb
    exact absurd (contains_of_get? ht) hname

theorem layout_congr (hid : s.SameInputs s' id)
    (h : ∀ name, s.Involves id name → s.SameInputs s' (.full name)) :
    s.layout id = s'.layout id := by
  have hneeded (b : String) (hb : s.Needs id b) :
      s.layoutBelow [] b = s'.layoutBelow [] b :=
    layoutBelow_congr fun x hx => h x ⟨b, hb, hx⟩
  cases id with
  | full name =>
    refine layoutBelow_congr fun b hb => ?_
    rcases hb.cases_head with rfl | ⟨first, hfirst, hreach⟩
    · exact hid
    · exact h b ⟨first, hfirst, hreach⟩
  | bounced name | init name => exact layoutWith_congr hid hneeded

end TypeStore

/-- The nodes of `sampleStore` behind another type that contains them, and one with a dangling name. -/
def sampleNodes : TypeStore where
  types :=
    [{ name := "Pair", kind := .struct
       fields :=
         [{ name := "left", type := .record "Node" }, { name := "right", type := .record "Node" }] },
     { name := "Node", kind := .struct
       fields :=
         [{ name := "value", type := .record "Point" },
           { name := "next", type := .optional (.record "Node") }] },
     { name := "Wide", kind := .message
       fields := [{ name := "a", type := .record "Nobody" }] },
     { name := "Point", kind := .struct
       fields := [{ name := "x", type := .int (.int 257) }, { name := "y", type := .bits 12 }] }]
  types_distinct := by decide

namespace LayoutCache

/--
On an empty cache, a request has the same result in two stores if they have the same kind, fields,
parameters and header for its record type and for all that are in the layout, and if the records that
the fields name are declared in both or in neither.
-/
theorem request_local {s s' : TypeStore} {id : LayoutId} (hid : s.SameInputs s' id)
    (h : ∀ name, s.Involves id name → s.SameInputs s' (.full name)) :
    ((request s id).run {}).1 = ((request s' id).run {}).1 := by
  rw [fresh_request, fresh_request]
  exact TypeStore.layout_congr hid h

theorem request_local_sample :
    ((request sampleStore (.full "Node")).run {}).1.isOk = true
      ∧ ((request sampleStore (.full "Node")).run {}).1 =
        ((request sampleNodes (.full "Node")).run {}).1 := by
  have hnode : sampleStore.SameInputs sampleNodes (.full "Node") := by
    refine ⟨rfl, fun t ht f hf name hname => ?_⟩
    cases ht
    simp only [LayoutId.fieldsOf, List.mem_cons, List.not_mem_nil, or_false] at hf
    rcases hf with rfl | rfl <;> cases hname <;> rfl
  have hpoint : sampleStore.SameInputs sampleNodes (.full "Point") := by
    refine ⟨rfl, fun t ht f hf name hname => ?_⟩
    cases ht
    simp only [LayoutId.fieldsOf, List.mem_cons, List.not_mem_nil, or_false] at hf
    rcases hf with rfl | rfl <;> cases hname
  refine ⟨by decide +kernel, request_local hnode fun name hname => ?_⟩
  -- the point is all there is in a node, and there is nothing in the point
  have hregion : name = "Point" := by
    refine hname.of_closed (R := (· = "Point")) ?_ ?_
    · rintro b ⟨t, ht, f, hf, htype⟩
      cases ht
      simp only [List.mem_cons, List.not_mem_nil, or_false] at hf
      rcases hf with rfl | rfl <;> cases htype
      rfl
    · rintro a b rfl ⟨t, ht, f, hf, htype⟩
      cases ht
      simp only [List.mem_cons, List.not_mem_nil, or_false] at hf
      rcases hf with rfl | rfl <;> cases htype
  rw [hregion]
  exact hpoint

end LayoutCache
end CellPack
