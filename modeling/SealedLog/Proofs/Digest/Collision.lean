import SealedLog.Digest.Basic

/-!
# Collisions

Nothing here assumes that the digest is injective. Where a statement needs two texts to be
equal because their hashes are, it says instead that they are equal or that two different
texts with one hash are at hand. `Collide as bs` is that second possibility, and it names
the lists from which the two texts are taken, so that a reader can see what was hashed.
-/

namespace SealedLog

namespace Digest

theorem ofText_empty : ofText "" = emptyRoot := by decide +kernel

/-- A text of `as` and a different text of `bs` have the same hash. -/
def Collide (as bs : List String) : Prop :=
  ∃ a ∈ as, ∃ b ∈ bs, a ≠ b ∧ ofText a = ofText b

theorem Collide.mono {as as' bs bs' : List String} (has : ∀ a ∈ as, a ∈ as')
    (hbs : ∀ b ∈ bs, b ∈ bs') (h : Collide as bs) : Collide as' bs' := by
  obtain ⟨a, ha, b, hb, hne, heq⟩ := h
  exact ⟨a, has a ha, b, hbs b hb, hne, heq⟩

/-- Texts with the same hashes in the same order are the same texts, short of a
collision. -/
theorem eq_or_collide_of_map_eq (as bs : List String)
    (h : as.map ofText = bs.map ofText) : as = bs ∨ Collide as bs := by
  induction as generalizing bs with
  | nil =>
      rw [List.map_nil, eq_comm, List.map_eq_nil_iff] at h
      exact Or.inl h.symm
  | cons a as ih =>
      cases bs with
      | nil => simp at h
      | cons b bs =>
          rw [List.map_cons, List.map_cons, List.cons.injEq] at h
          by_cases hab : a = b
          · rcases ih bs h.2 with htail | hcol
            · exact Or.inl (by rw [hab, htail])
            · exact Or.inr (hcol.mono (fun _ => List.mem_cons_of_mem a)
                (fun _ => List.mem_cons_of_mem b))
          · exact Or.inr ⟨a, by simp, b, by simp, hab, h.1⟩

end Digest

end SealedLog
