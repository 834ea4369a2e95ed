import SealedLog.Proofs.Tree.Batch

/-!
# What a root binds

A root binds the texts that were hashed on the way to it, level by level from the top down,
for as long as both trees go on. It does not bind the number of levels, since an inner node
hashes the hashes of its children as a leaf hashes its blocks; and it does not bind how the
text of a leaf is made up of blocks, since these are run together. So of two trees with one
root the levels of one are the upper levels of the other, or there is a collision.
-/

namespace SealedLog

namespace Batch

open Digest

theorem length_append_hash {a b : Hash} (ha : a.length = 64) (hb : b.length = 64) :
    (a ++ b).length = 128 := by
  rw [String.length_append, ha, hb]

/-- Hashes of one length can be read off the texts over them. -/
theorem pairTexts_injective : ∀ {as bs : List Hash}, (∀ a ∈ as, a.length = 64) →
    (∀ b ∈ bs, b.length = 64) → pairTexts as = pairTexts bs → as = bs
  | [], [], _, _, _ => rfl
  | [], [b], _, _, h => by simp [pairTexts] at h
  | [], b :: b' :: bs, _, _, h => by simp [pairTexts] at h
  | [a], [], _, _, h => by simp [pairTexts] at h
  | [a], [b], _, _, h => h
  | [a], b :: b' :: bs, ha, hb, h => by
      rw [pairTexts, pairTexts, List.cons.injEq] at h
      have hshort := ha a (by simp)
      have hlong := length_append_hash (hb b (by simp)) (hb b' (by simp))
      rw [h.1] at hshort
      omega
  | a :: a' :: as, [], _, _, h => by simp [pairTexts] at h
  | a :: a' :: as, [b], ha, hb, h => by
      rw [pairTexts, pairTexts, List.cons.injEq] at h
      have hshort := hb b (by simp)
      have hlong := length_append_hash (ha a (by simp)) (ha a' (by simp))
      rw [h.1] at hlong
      omega
  | a :: a' :: as, b :: b' :: bs, ha, hb, h => by
      rw [pairTexts, pairTexts, List.cons.injEq] at h
      have htexts := congrArg String.toList h.1
      rw [String.toList_append, String.toList_append] at htexts
      have hlength : a.toList.length = b.toList.length := by
        rw [String.length_toList, String.length_toList, ha a (by simp), hb b (by simp)]
      obtain ⟨hfirst, hsecond⟩ := List.append_inj htexts hlength
      have hrest := pairTexts_injective (fun c hc => ha c (by simp [hc]))
        (fun c hc => hb c (by simp [hc])) h.2
      rw [String.toList_injective hfirst, String.toList_injective hsecond, hrest]

/-- A level is known by its hashes once the level above it is known. -/
theorem map_ofText_eq_of_textsAbove_eq {ts us : List String}
    (h : textsAbove ts = textsAbove us) : ts.map ofText = us.map ofText := by
  apply pairTexts_injective _ _ h
  · intro a ha
    obtain ⟨t, -, rfl⟩ := List.mem_map.1 ha
    exact length_ofText t
  · intro b hb
    obtain ⟨u, -, rfl⟩ := List.mem_map.1 hb
    exact length_ofText u

/-- Two lists of levels from the top down, with the same hashes at the top: the shorter one
is the beginning of the longer one, short of a collision. -/
theorem prefix_or_collide {as bs : List (List String)}
    (ha : as.IsChain fun upper lower => upper = textsAbove lower)
    (hb : bs.IsChain fun upper lower => upper = textsAbove lower)
    (htop : ∀ a ∈ as.head?, ∀ b ∈ bs.head?, a.map ofText = b.map ofText) :
    (as <+: bs ∨ bs <+: as) ∨ Collide as.flatten bs.flatten := by
  induction as generalizing bs with
  | nil => exact Or.inl (Or.inl List.nil_prefix)
  | cons a as ih =>
      cases bs with
      | nil => exact Or.inl (Or.inr List.nil_prefix)
      | cons b bs =>
          rw [List.isChain_cons] at ha hb
          rcases eq_or_collide_of_map_eq a b (htop a rfl b rfl) with rfl | hcol
          · have hnext : ∀ a' ∈ as.head?, ∀ b' ∈ bs.head?, a'.map ofText = b'.map ofText := by
              intro a' ha' b' hb'
              apply map_ofText_eq_of_textsAbove_eq
              rw [← ha.1 a' ha', ← hb.1 b' hb']
            rcases ih ha.2 hb.2 hnext with (hpre | hpre) | hcol
            · exact Or.inl (Or.inl (List.prefix_cons_inj a |>.2 hpre))
            · exact Or.inl (Or.inr (List.prefix_cons_inj a |>.2 hpre))
            · refine Or.inr (hcol.mono ?_ ?_) <;> intro t ht <;> simp [ht]
          · refine Or.inr (hcol.mono ?_ ?_) <;> intro t ht <;> simp [ht]

theorem head?_textsOver (ts : List String) : (textsOver ts).head? = some ts := by
  rw [textsOver]
  split <;> rfl

theorem isChain_textsOver (ts : List String) :
    (textsOver ts).IsChain fun lower upper => upper = textsAbove lower := by
  induction ts using textsOver.induct with
  | case1 ts hle =>
      rw [textsOver_of_le hle]
      exact List.isChain_singleton ts
  | case2 ts hlt ih =>
      rw [textsOver_of_lt (by omega), List.isChain_cons]
      refine ⟨?_, ih⟩
      intro upper hupper
      rw [head?_textsOver, Option.mem_some_iff] at hupper
      exact hupper.symm

/-- The texts of one tree are the upper levels of the texts of the other. -/
def SameTexts (bs cs : List String) : Prop :=
  texts bs <:+ texts cs ∨ texts cs <:+ texts bs

/-- Trees with one root have the same texts, short of a collision between two of them. -/
theorem sameTexts_or_collide {bs cs : List String} (h : root bs = root cs) :
    SameTexts bs cs ∨ Collide (texts bs).flatten (texts cs).flatten := by
  have hb := List.isChain_reverse.2 (isChain_textsOver (leafTexts bs))
  have hc := List.isChain_reverse.2 (isChain_textsOver (leafTexts cs))
  have htop : ∀ a ∈ (texts bs).reverse.head?, ∀ b ∈ (texts cs).reverse.head?,
      a.map ofText = b.map ofText := by
    intro a ha b hb
    rw [List.head?_reverse, getLast?_texts, Option.mem_some_iff] at ha hb
    rw [← ha, ← hb]
    exact congrArg (fun hash => [hash]) h
  rcases prefix_or_collide hb hc htop with hpre | hcol
  · exact Or.inl (hpre.imp List.reverse_prefix.1 List.reverse_prefix.1)
  · refine Or.inr (hcol.mono ?_ ?_) <;> intro t ht
    · obtain ⟨level, hlevel, ht⟩ := List.mem_flatten.1 ht
      exact List.mem_flatten.2 ⟨level, List.mem_reverse.1 hlevel, ht⟩
    · obtain ⟨level, hlevel, ht⟩ := List.mem_flatten.1 ht
      exact List.mem_flatten.2 ⟨level, List.mem_reverse.1 hlevel, ht⟩

theorem rootText_eq_of_suffix {bs cs : List String} (h : texts bs <:+ texts cs) :
    rootText bs = rootText cs := by
  obtain ⟨below, hbelow⟩ := h
  have hlast := getLast?_texts cs
  rw [← hbelow, List.getLast?_append, getLast?_texts, Option.some_or, Option.some.injEq,
    List.cons.injEq] at hlast
  exact hlast.1

/-- Trees with the same texts have one root: what `sameTexts_or_collide` leaves open, a root
does leave open. -/
theorem SameTexts.root_eq {bs cs : List String} (h : SameTexts bs cs) : root bs = root cs := by
  rcases h with h | h
  · rw [root, root, rootText_eq_of_suffix h]
  · rw [root, root, rootText_eq_of_suffix h]

/-- Trees with the same texts and as many levels have the same leaf texts. -/
theorem SameTexts.leafTexts_eq {bs cs : List String} (h : SameTexts bs cs)
    (hlevels : (texts bs).length = (texts cs).length) : leafTexts bs = leafTexts cs := by
  have htexts : texts bs = texts cs := by
    rcases h with h | h
    · exact h.eq_of_length hlevels
    · exact (h.eq_of_length hlevels.symm).symm
  have hhead := congrArg List.head? htexts
  rwa [texts, texts, head?_textsOver, head?_textsOver, Option.some.injEq] at hhead

end Batch

end SealedLog
