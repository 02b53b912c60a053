import Mathlib
import CellPack.Proofs.Steps
import CellPack.Signature
/-!
# Headers

Signing a store refuses a message with the header of an earlier one, so every message of a signed
store has a header of its own (`TypeStore.ownHeaders_withSignatures`).
-/

namespace CellPack.TypeStore

variable {s s' : TypeStore}

/-- Every message has a header, which no other message has. -/
structure OwnHeaders (s : TypeStore) : Prop where
  present : ∀ t ∈ s.types, t.isMessage = true → ∃ header, t.headerValue = some header
  distinct : ∀ t ∈ s.types, ∀ u ∈ s.types, t.isMessage = true → u.isMessage = true →
    t.headerValue = u.headerValue → t = u

/-- Messages that pass the check have other headers than those seen before, and than each other. -/
theorem checkHeaders_ok (ts : List RecordType) :
    ∀ seen, s.checkHeaders seen ts = .ok () →
      (∀ t ∈ ts, t.isMessage = true → seen.lookup (s.messageHeader t) = none)
        ∧ ts.Pairwise fun t u => t.isMessage = true → u.isMessage = true →
          s.messageHeader t ≠ s.messageHeader u := by
  induction ts with
  | nil => exact fun _ _ => ⟨by simp, .nil⟩
  | cons t ts ih =>
    intro seen h
    unfold checkHeaders at h
    by_cases hmessage : t.isMessage = true
    · rw [if_pos hmessage] at h
      simp only at h
      split at h
      · cases h
      · next hfresh =>
        obtain ⟨hseen, hdistinct⟩ := ih _ h
        -- a later message has neither the header of this one nor one that was seen before
        have hlater : ∀ u ∈ ts, u.isMessage = true →
            s.messageHeader u ≠ s.messageHeader t ∧ seen.lookup (s.messageHeader u) = none := by
          intro u hu hmessage
          have hnone := hseen u hu hmessage
          rw [List.lookup_cons] at hnone
          split at hnone
          · cases hnone
          · next hne => exact ⟨by simpa using hne, hnone⟩
        refine ⟨List.forall_mem_cons.2 ⟨fun _ => hfresh, fun u hu hm => (hlater u hu hm).2⟩, ?_⟩
        exact .cons (fun u hu _ hm => (hlater u hu hm).1.symm) hdistinct
    · rw [if_neg hmessage] at h
      obtain ⟨hseen, hdistinct⟩ := ih seen h
      refine ⟨List.forall_mem_cons.2 ⟨fun hm => absurd hm hmessage, hseen⟩, ?_⟩
      exact .cons (fun u _ hm => absurd hm hmessage) hdistinct

theorem isMessage_signed (t : RecordType) : (s.signed t).isMessage = t.isMessage := by
  unfold signed
  split <;> rfl

theorem headerValue_signed {t : RecordType} (h : t.isMessage = true) :
    (s.signed t).headerValue = some (s.messageHeader t) := by
  have hkind : t.kind = .message := by simpa [RecordType.isMessage] using h
  unfold signed
  rw [hkind]

/-- Each message of a signed store has a header of its own. -/
theorem ownHeaders_withSignatures (h : s.withSignatures = .ok s') : s'.OwnHeaders := by
  obtain ⟨⟨⟩, hcheck, hs'⟩ := bind_eq_ok.1 h
  obtain rfl := Except.ok.inj hs'
  obtain ⟨-, hdistinct⟩ := checkHeaders_ok s.types [] hcheck
  have hsigned : ∀ t ∈ s.types.map s.signed, t.isMessage = true →
      ∃ t' ∈ s.types, t'.isMessage = true ∧ t = s.signed t' := by
    intro t ht hmessage
    obtain ⟨t', ht', rfl⟩ := List.mem_map.1 ht
    exact ⟨t', ht', isMessage_signed t' ▸ hmessage, rfl⟩
  refine ⟨fun t ht hmessage => ?_, fun t ht u hu htm hum heq => ?_⟩
  · obtain ⟨t', -, hmessage', rfl⟩ := hsigned t ht hmessage
    exact ⟨_, headerValue_signed hmessage'⟩
  · obtain ⟨t', ht', htm', rfl⟩ := hsigned t ht htm
    obtain ⟨u', hu', hum', rfl⟩ := hsigned u hu hum
    rw [headerValue_signed htm', headerValue_signed hum'] at heq
    by_contra hne
    have : Std.Symm fun t u : RecordType => t.isMessage = true → u.isMessage = true →
        s.messageHeader t ≠ s.messageHeader u := ⟨fun _ _ h hu ht => (h ht hu).symm⟩
    have hall := hdistinct.forall ht' hu' fun h => hne (h ▸ rfl)
    exact hall htm' hum' (Option.some.inj heq)

end CellPack.TypeStore
