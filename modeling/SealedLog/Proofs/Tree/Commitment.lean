import SealedLog.Proofs.Tree.Binding
import SealedLog.Proofs.Tree.Content

/-!
# What a root binds once the number of leaves is known

A root leaves open how many levels there are below it, but not for trees of one size: these
have as many levels, and the texts of a level follow from those of the level above, since
hashes of one length can be read off the texts over them. The descent goes through both trees
at once, for any number of leaves; a lone last node is a pair text of one hash only and is
told from the others by its length.

Nothing else about the digest is used, so `levels_eq_of_injective` takes an arbitrary one with
values of 64 characters. A text of a level that differs is the collision.
-/

namespace SealedLog

namespace Batch

theorem eq_of_map_eq_of_injective {digest : String → Hash} {as bs : List String}
    (h : as.map digest = bs.map digest)
    (hinj : ∀ a ∈ as, ∀ b ∈ bs, digest a = digest b → a = b) : as = bs := by
  have hlength : as.length = bs.length := by simpa using congrArg List.length h
  refine List.ext_getElem hlength fun i hi hi' => ?_
  have hplace : digest as[i] = digest bs[i] := by
    simpa [hi, hi'] using congrArg (fun hashes => hashes[i]?) h
  exact hinj _ (List.getElem_mem hi) _ (List.getElem_mem hi') hplace

/-- Lists of as many levels, from the top down, each level with the pair texts of the one
below it. If the tops have the same hashes and no text of one list has the hash of a different
text of the other, then the lists are the same. -/
theorem levels_eq_of_injective {digest : String → Hash}
    (hlength : ∀ text, (digest text).length = 64) {as bs : List (List String)}
    (ha : as.IsChain fun upper lower => upper = pairTexts (lower.map digest))
    (hb : bs.IsChain fun upper lower => upper = pairTexts (lower.map digest))
    (hlevels : as.length = bs.length)
    (htop : ∀ a ∈ as.head?, ∀ b ∈ bs.head?, a.map digest = b.map digest)
    (hinj : ∀ s ∈ as.flatten, ∀ t ∈ bs.flatten, digest s = digest t → s = t) : as = bs := by
  induction as generalizing bs with
  | nil => exact (List.eq_nil_of_length_eq_zero hlevels.symm).symm
  | cons a as ih =>
      cases bs with
      | nil => simp at hlevels
      | cons b bs =>
          rw [List.isChain_cons] at ha hb
          have hsame : a = b := eq_of_map_eq_of_injective (htop a rfl b rfl) fun s hs t ht =>
            hinj s (by simp [hs]) t (by simp [ht])
          have hnext : ∀ a' ∈ as.head?, ∀ b' ∈ bs.head?, a'.map digest = b'.map digest := by
            intro a' ha' b' hb'
            apply pairTexts_injective
            · simp [hlength]
            · simp [hlength]
            · rw [← ha.1 a' ha', ← hb.1 b' hb', hsame]
          have hrest := ih ha.2 hb.2 (Nat.succ.inj hlevels) hnext fun s hs t ht =>
            hinj s (by rw [List.flatten_cons]; exact List.mem_append_right a hs)
              t (by rw [List.flatten_cons]; exact List.mem_append_right b ht)
          rw [hsame, hrest]

theorem textsOver_eq_take (ts : List String) :
    textsOver ts = (ts :: (textsOver ts).map textsAbove).take (textsOver ts).length := by
  induction ts using textsOver.induct with
  | case1 ts hle =>
      rw [textsOver_of_le hle]
      rfl
  | case2 ts hlt ih =>
      rw [textsOver_of_lt (by omega), List.map_cons, List.length_cons, List.take_succ_cons, ← ih]

end Batch

namespace Tree

open Digest

/-- The texts of which the tree records the hashes, level by level, the leaves first: the
blocks of every leaf run together, and the hashes of every pair of each level but the top. -/
def hashedTexts (t : Tree) : List (List String) :=
  (t.leafBlocks.map String.join :: t.levelHashes.map Batch.pairTexts).take t.levelHashes.length

theorem Holds.hashedTexts_eq {t : Tree} {bs : List String} (h : t.Holds bs) :
    t.hashedTexts = if bs = [] then [] else Batch.texts bs := by
  rw [hashedTexts, h.leafBlocks_eq, h.levelHashes_eq, Batch.levelHashes]
  split
  · rfl
  · next hne =>
      have htexts := Batch.textsOver_eq_take (Batch.leafTexts bs)
      rw [Batch.leafTexts, if_neg hne] at htexts
      rw [Batch.texts, Batch.leafTexts, if_neg hne, List.map_map, List.length_map]
      exact htexts.symm

theorem Holds.map_hashedTexts {t : Tree} {bs : List String} (h : t.Holds bs) :
    t.hashedTexts.map (List.map ofText) = t.levelHashes := by
  rw [h.hashedTexts_eq, h.levelHashes_eq, Batch.levelHashes]
  split
  · rfl
  · rfl

theorem Holds.leafCount_eq_zero_iff {t : Tree} {bs : List String} (h : t.Holds bs) :
    t.leafCount = 0 ↔ bs = [] := by
  rw [h.leafCount_eq, ← List.length_eq_zero_iff, leafCapacity]
  omega

/-- The descent through two trees between whose texts there is no collision. -/
theorem Holds.leafTexts_eq_of_not_collide {t u : Tree} {bs cs : List String} (h : t.Holds bs)
    (h' : u.Holds cs) (hcount : t.leafCount = u.leafCount) (hroot : t.rootHash = u.rootHash)
    (hcol : ¬ Collide t.hashedTexts.flatten u.hashedTexts.flatten) :
    t.leafBlocks.map String.join = u.leafBlocks.map String.join := by
  rw [h.leafBlocks_eq, h'.leafBlocks_eq]
  have hnil : bs = [] ↔ cs = [] := by
    rw [← h.leafCount_eq_zero_iff, hcount, h'.leafCount_eq_zero_iff]
  by_cases hbs : bs = []
  · rw [hbs, hnil.1 hbs]
  · have hcs : cs ≠ [] := fun hcs => hbs (hnil.2 hcs)
    rw [h.hashedTexts_eq, h'.hashedTexts_eq, if_neg hbs, if_neg hcs] at hcol
    have hsize : (Batch.leafTexts bs).length = (Batch.leafTexts cs).length := by
      rw [Batch.leafTexts, if_neg hbs, Batch.leafTexts, if_neg hcs, List.length_map,
        List.length_map, ← h.leafBlocks_eq, ← h'.leafBlocks_eq, h.sound.length_leafBlocks,
        h'.sound.length_leafBlocks, hcount]
    have htexts : (Batch.texts bs).reverse = (Batch.texts cs).reverse := by
      apply Batch.levels_eq_of_injective length_ofText
      · exact List.isChain_reverse.2 (Batch.isChain_textsOver _)
      · exact List.isChain_reverse.2 (Batch.isChain_textsOver _)
      · rw [List.length_reverse, List.length_reverse]
        exact Batch.length_textsOver_congr hsize
      · intro a ha b hb
        rw [List.head?_reverse, Batch.getLast?_texts, Option.mem_some_iff] at ha hb
        rw [← ha, ← hb]
        rw [h.rootHash_eq, h'.rootHash_eq] at hroot
        exact congrArg (fun hash => [hash]) hroot
      · intro a ha b hb hab
        by_contra hne
        refine hcol ⟨a, ?_, b, ?_, hne, hab⟩
        · simpa using ha
        · simpa using hb
    have hhead := congrArg List.head? (List.reverse_injective htexts)
    rwa [Batch.texts, Batch.texts, Batch.head?_textsOver, Batch.head?_textsOver,
      Option.some.injEq, Batch.leafTexts, if_neg hbs, Batch.leafTexts, if_neg hcs] at hhead

/-- Two trees that were grown block by block, with as many leaves and the same root. The
hashes that a tree records are those of its texts, place by place; and either the trees agree in
the text of every leaf, or a text of the one and a different text of the other have the same
hash. -/
theorem leaves_eq_or_collide_of_rootHash_eq {bs cs : List String} {maxLeaves maxLeaves' : Nat}
    {t u : Tree} (ht : ofBlocks bs maxLeaves = .ok t) (hu : ofBlocks cs maxLeaves' = .ok u)
    (hcount : t.leafCount = u.leafCount) (hroot : t.rootHash = u.rootHash) :
    t.hashedTexts.map (List.map ofText) = t.levelHashes ∧
    u.hashedTexts.map (List.map ofText) = u.levelHashes ∧
    ((∀ i : Nat, t.leafBlocks[i]?.map String.join = u.leafBlocks[i]?.map String.join) ∨
      Collide t.hashedTexts.flatten u.hashedTexts.flatten) := by
  obtain ⟨_, ht', hbs, -⟩ := ofBlocks_eq_ok bs maxLeaves
  obtain ⟨_, hu', hcs, -⟩ := ofBlocks_eq_ok cs maxLeaves'
  obtain rfl := Except.ok.inj (ht.symm.trans ht')
  obtain rfl := Except.ok.inj (hu.symm.trans hu')
  refine ⟨hbs.map_hashedTexts, hcs.map_hashedTexts, ?_⟩
  by_cases hcol : Collide t.hashedTexts.flatten u.hashedTexts.flatten
  · exact Or.inr hcol
  · left
    have hleaves := hbs.leafTexts_eq_of_not_collide hcs hcount hroot hcol
    intro i
    rw [← List.getElem?_map, hleaves, List.getElem?_map]

/-- Two trees of two leaves, in the first of which the blocks are cut in different places. -/
theorem leaves_eq_or_collide_of_shifted :
    ∃ t u, ofBlocks ["a", "b", "c", "d", "e"] 1 = .ok t ∧
      ofBlocks ["ab", "", "cd", "", "e"] 2 = .ok u ∧
      t.leafCount = u.leafCount ∧ t.rootHash = u.rootHash ∧
      ((∀ i : Nat, t.leafBlocks[i]?.map String.join = u.leafBlocks[i]?.map String.join) ∨
        Collide t.hashedTexts.flatten u.hashedTexts.flatten) := by
  obtain ⟨t, ht, hbs, -⟩ := ofBlocks_eq_ok ["a", "b", "c", "d", "e"] 1
  obtain ⟨u, hu, hcs, -⟩ := ofBlocks_eq_ok ["ab", "", "cd", "", "e"] 2
  have hcount : t.leafCount = u.leafCount := by rw [hbs.leafCount_eq, hcs.leafCount_eq]; rfl
  have hroot : t.rootHash = u.rootHash := by
    have hleaves : Batch.leafTexts ["a", "b", "c", "d", "e"] =
        Batch.leafTexts ["ab", "", "cd", "", "e"] := by
      simp [Batch.leafTexts, Batch.leaves_of_ne_nil, leafCapacity]
    rw [hbs.rootHash_eq, hcs.rootHash_eq, Batch.root, Batch.root, Batch.rootText,
      Batch.rootText, Batch.texts, Batch.texts, hleaves]
  exact ⟨t, u, ht, hu, hcount, hroot,
    (leaves_eq_or_collide_of_rootHash_eq ht hu hcount hroot).2.2⟩

end Tree

end SealedLog
