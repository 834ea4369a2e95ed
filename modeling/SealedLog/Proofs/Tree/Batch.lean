import SealedLog.Proofs.Digest.Collision
import SealedLog.Snapshot.Basic
import Mathlib.Data.List.Chain

/-!
# Trees built in one go

What a tree over a list of blocks should hold, said without nodes and without the order in
which they were made. The blocks are cut into leaves, every leaf gives one text to be
hashed, and the hashes of a level, taken in pairs, are the texts of the level above, up to
the first level with one text.

The statements are about the texts rather than about their hashes: a text determines its
hash, and which texts were hashed is what a statement about two trees turns on. The empty
tree has no leaves, but its root is the hash of the empty text, so for the texts it counts
as a tree whose only leaf is empty.
-/

namespace SealedLog

namespace Batch

/-- Blocks in leaves: `leafCapacity` to a leaf, the last leaf possibly shorter. -/
def leaves : List String → List (List String)
  | [] => []
  | b :: bs => (b :: bs).take leafCapacity :: leaves ((b :: bs).drop leafCapacity)
termination_by bs => bs.length
decreasing_by
  simp only [List.length_drop, List.length_cons, leafCapacity]
  omega

@[simp] theorem leaves_nil : leaves [] = [] := by rw [leaves]

theorem leaves_of_ne_nil {bs : List String} (h : bs ≠ []) :
    leaves bs = bs.take leafCapacity :: leaves (bs.drop leafCapacity) := by
  cases bs with
  | nil => exact absurd rfl h
  | cons b bs => rw [leaves]

theorem leaves_of_length_le {bs : List String} (h : bs ≠ [])
    (hle : bs.length ≤ leafCapacity) : leaves bs = [bs] := by
  rw [leaves_of_ne_nil h, List.take_of_length_le hle, List.drop_of_length_le hle, leaves_nil]

/-- Run together, the leaves are the blocks again. -/
theorem flatten_leaves (bs : List String) : (leaves bs).flatten = bs := by
  induction bs using leaves.induct with
  | case1 => simp
  | case2 b bs ih =>
      rw [leaves, List.flatten_cons, ih]
      exact List.take_append_drop leafCapacity (b :: bs)

theorem length_leaves (bs : List String) :
    (leaves bs).length = (bs.length + 3) / leafCapacity := by
  induction bs using leaves.induct with
  | case1 => simp [leafCapacity]
  | case2 b bs ih =>
      rw [leaves, List.length_cons, ih]
      simp only [List.length_drop, List.length_cons, leafCapacity]
      omega

/-- A block after full leaves opens a new leaf. -/
theorem leaves_append_of_full (bs : List String) (b : String)
    (h : bs.length % leafCapacity = 0) : leaves (bs ++ [b]) = leaves bs ++ [[b]] := by
  induction bs using leaves.induct with
  | case1 =>
      have hone := leaves_of_length_le (show [b] ≠ [] by simp) (by simp [leafCapacity])
      simpa using hone
  | case2 c bs ih =>
      have hlong : leafCapacity ≤ (c :: bs).length := by
        simp only [List.length_cons, leafCapacity] at h ⊢
        omega
      rw [leaves_of_ne_nil (by simp), List.take_append_of_le_length hlong,
        List.drop_append_of_le_length hlong, ih, leaves, List.cons_append]
      simp only [List.length_drop, List.length_cons, leafCapacity] at h ⊢
      omega

/-- A block after a leaf with room goes to the end of that leaf. -/
theorem leaves_append_of_room (bs : List String) (b : String)
    (h : bs.length % leafCapacity ≠ 0) :
    ∃ front last, leaves bs = front ++ [last] ∧
      last.length = bs.length % leafCapacity ∧
      leaves (bs ++ [b]) = front ++ [last ++ [b]] := by
  induction bs using leaves.induct with
  | case1 => simp at h
  | case2 c bs ih =>
      by_cases hlong : leafCapacity ≤ (c :: bs).length
      · have hmod : ((c :: bs).drop leafCapacity).length % leafCapacity =
            (c :: bs).length % leafCapacity := by
          rw [List.length_drop]
          simp only [leafCapacity] at hlong ⊢
          omega
        obtain ⟨front, last, hleaves, hlast, hnext⟩ := ih (by rw [hmod]; exact h)
        refine ⟨(c :: bs).take leafCapacity :: front, last, ?_, by rw [hlast, hmod], ?_⟩
        · rw [leaves, hleaves, List.cons_append]
        · rw [leaves_of_ne_nil (by simp), List.take_append_of_le_length hlong,
            List.drop_append_of_le_length hlong, hnext, List.cons_append]
      · have hfit : ((c :: bs) ++ [b]).length ≤ leafCapacity := by
          rw [List.length_append, List.length_singleton]
          omega
        refine ⟨[], c :: bs, ?_, ?_, ?_⟩
        · exact leaves_of_length_le (by simp) (by omega)
        · exact (Nat.mod_eq_of_lt (by omega)).symm
        · exact leaves_of_length_le (by simp) hfit

/-- Where the blocks fill the last leaf, all leaves are full. -/
theorem length_of_mem_leaves {bs leaf : List String} (hfull : bs.length % leafCapacity = 0)
    (h : leaf ∈ leaves bs) : leaf.length = leafCapacity := by
  induction bs using leaves.induct with
  | case1 => simp at h
  | case2 b bs ih =>
      have hlong : leafCapacity ≤ (b :: bs).length := by
        simp only [List.length_cons, leafCapacity] at hfull ⊢
        omega
      rw [leaves, List.mem_cons] at h
      rcases h with rfl | h
      · rw [List.length_take, Nat.min_eq_left hlong]
      · refine ih ?_ h
        rw [List.length_drop]
        simp only [leafCapacity] at hfull hlong ⊢
        omega

/-- The texts of the branches over a level with the given hashes. -/
def pairTexts : List Hash → List String
  | [] => []
  | [a] => [a]
  | a :: b :: rest => (a ++ b) :: pairTexts rest

@[simp] theorem length_pairTexts : ∀ hs : List Hash,
    (pairTexts hs).length = (hs.length + 1) / 2
  | [] => by simp [pairTexts]
  | [a] => by simp [pairTexts]
  | a :: b :: rest => by
      rw [pairTexts, List.length_cons, length_pairTexts rest, List.length_cons,
        List.length_cons]
      omega

/-- The branch at place `i` hashes what stands at the places `2 * i` and `2 * i + 1`. -/
theorem getElem?_pairTexts : ∀ (hs : List Hash) (i : Nat),
    (pairTexts hs)[i]? = hs[2 * i]?.map fun a => a ++ hs[2 * i + 1]?.getD ""
  | [], i => by simp [pairTexts]
  | [a], 0 => by simp [pairTexts]
  | [a], i + 1 => by simp [pairTexts, show 2 * (i + 1) = 2 * i + 1 + 1 by omega]
  | a :: b :: rest, 0 => by simp [pairTexts]
  | a :: b :: rest, i + 1 => by
      rw [pairTexts, List.getElem?_cons_succ, getElem?_pairTexts rest i,
        show 2 * (i + 1) = 2 * i + 1 + 1 by omega]
      simp only [List.getElem?_cons_succ]

/-- The texts of the level above a level with the texts `ts`. -/
def textsAbove (ts : List String) : List String :=
  pairTexts (ts.map Digest.ofText)

@[simp] theorem length_textsAbove (ts : List String) :
    (textsAbove ts).length = (ts.length + 1) / 2 := by
  rw [textsAbove, length_pairTexts, List.length_map]

/-- The texts of all levels over a level with the texts `ts`, that level first. -/
def textsOver (ts : List String) : List (List String) :=
  if ts.length ≤ 1 then [ts] else ts :: textsOver (textsAbove ts)
termination_by ts.length
decreasing_by
  rw [length_textsAbove]
  omega

theorem textsOver_of_le {ts : List String} (h : ts.length ≤ 1) : textsOver ts = [ts] := by
  rw [textsOver, if_pos h]

theorem textsOver_of_lt {ts : List String} (h : 1 < ts.length) :
    textsOver ts = ts :: textsOver (textsAbove ts) := by
  rw [textsOver, if_neg (by omega)]

/-- The size of a level is enough to know how many levels stand over it. -/
theorem length_textsOver_congr {ts us : List String} (h : ts.length = us.length) :
    (textsOver ts).length = (textsOver us).length := by
  induction ts using textsOver.induct generalizing us with
  | case1 ts hle => rw [textsOver_of_le hle, textsOver_of_le (by omega)]; rfl
  | case2 ts hlt ih =>
      rw [textsOver_of_lt (show 1 < ts.length by omega),
        textsOver_of_lt (show 1 < us.length by omega), List.length_cons, List.length_cons,
        ih (show (textsAbove ts).length = (textsAbove us).length by simp [h])]

def leafTexts (bs : List String) : List String :=
  if bs = [] then [""] else (leaves bs).map String.join

/-- The texts of all levels of the tree over `bs`, the leaves first. -/
def texts (bs : List String) : List (List String) :=
  textsOver (leafTexts bs)

/-- The hashes of all levels of the tree over `bs`, the leaves first. -/
def levelHashes (bs : List String) : List (List Hash) :=
  if bs = [] then [] else (texts bs).map (List.map Digest.ofText)

/-- The text whose hash is the root. -/
def rootText (bs : List String) : String :=
  ((texts bs).getLast?.bind List.head?).getD ""

def root (bs : List String) : Hash :=
  Digest.ofText (rootText bs)

/-- The state of the tree over `bs`, as it is written at the time `now`. -/
def snapshot (bs : List String) (treeIndex now : Nat) : Snapshot :=
  ⟨root bs, treeIndex, leaves bs, levelHashes bs, now⟩

theorem leafTexts_ne_nil (bs : List String) : leafTexts bs ≠ [] := by
  by_cases h : bs = []
  · simp [leafTexts, h]
  · simp [leafTexts, h, leaves_of_ne_nil h]

/-- The top level has one text. -/
theorem exists_getLast?_textsOver (ts : List String) (h : ts ≠ []) :
    ∃ top, (textsOver ts).getLast? = some [top] := by
  induction ts using textsOver.induct with
  | case1 ts hle =>
      obtain ⟨t, rfl⟩ := List.length_eq_one_iff.1
        (Nat.le_antisymm hle (List.length_pos_iff.2 h))
      exact ⟨t, by rw [textsOver_of_le hle, List.getLast?_singleton]⟩
  | case2 ts hlt ih =>
      have hup : textsAbove ts ≠ [] := by
        rw [← List.length_pos_iff, length_textsAbove]
        omega
      obtain ⟨top, htop⟩ := ih hup
      refine ⟨top, ?_⟩
      rw [textsOver_of_lt (by omega), List.getLast?_cons, htop, Option.getD_some]

theorem getLast?_texts (bs : List String) : (texts bs).getLast? = some [rootText bs] := by
  obtain ⟨top, htop⟩ := exists_getLast?_textsOver (leafTexts bs) (leafTexts_ne_nil bs)
  rw [rootText, texts, htop]
  simp

@[simp] theorem texts_nil : texts [] = [[""]] := by
  rw [texts, leafTexts, if_pos rfl]
  exact textsOver_of_le (by simp)

@[simp] theorem rootText_nil : rootText [] = "" := by simp [rootText]

theorem root_nil : root [] = Digest.emptyRoot := by
  rw [root, rootText_nil, Digest.ofText_empty]

theorem texts_of_length_le {bs : List String} (hle : bs.length ≤ leafCapacity) :
    texts bs = [[String.join bs]] := by
  by_cases h : bs = []
  · subst h
    exact texts_nil
  · rw [texts, leafTexts, if_neg h, leaves_of_length_le h hle]
    exact textsOver_of_le (by simp)

theorem rootText_of_length_le {bs : List String} (hle : bs.length ≤ leafCapacity) :
    rootText bs = String.join bs := by
  simp [rootText, texts_of_length_le hle]

end Batch

end SealedLog
