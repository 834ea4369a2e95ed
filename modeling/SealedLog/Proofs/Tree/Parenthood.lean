import SealedLog.Proofs.Tree.Frame
import SealedLog.Proofs.Tree.Tampering

/-!
# Parents in a tree that was handled

Tampering writes one leaf anew and neither makes a node nor removes one, so a tree owns its nodes
whatever was appended to it and overwritten in it. No name is handed out twice on the way
(`NamesKept`): one whose node is gone does not come back. The search for a parent therefore ends
with the one branch of the arena that has the given name among its children, and with nothing if
the name is that of the root, of a node that is gone, or of none.

Main statement: `exists_run_findsParents`.
-/

namespace SealedLog

namespace Tree

theorem get?_of_findLeaf? {t : Tree} {data : String} {i : Nat} {id : NodeId} {n : Node}
    (hfind : t.findLeaf? data = some (i, id, n)) : t.arena.get? id = some n := by
  obtain ⟨⟨id', j⟩, -, hmap⟩ := List.exists_of_findSome?_eq_some hfind
  obtain ⟨m, hm, heq⟩ := Option.map_eq_some_iff.1 hmap
  simp only [Prod.mk.injEq] at heq
  obtain ⟨-, rfl, rfl⟩ := heq
  exact (Option.filter_eq_some_iff.1 hm).1

/-- Tampering writes one node anew, if it does anything. -/
theorem tamper_cases (t : Tree) (old new : String) :
    (t.tamper old new).1 = t ∨ ∃ id n forged, t.arena.get? id = some n ∧
      (t.tamper old new).1 = { t with arena := t.arena.set id forged } := by
  rw [tamper]
  cases hfind : t.findLeaf? old with
  | none => exact Or.inl rfl
  | some found => exact Or.inr ⟨found.2.1, found.2.2, _, get?_of_findLeaf? hfind, rfl⟩

theorem Owned.tamper {t : Tree} (ho : t.Owned) (old new : String) :
    (t.tamper old new).1.Owned := by
  rcases tamper_cases t old new with heq | ⟨id, n, forged, hn, heq⟩
  · rwa [heq]
  · rw [heq]
    intro other
    rw [Arena.isSome_get?_set hn]
    exact ho other

/-- Between the two trees names were handed out, and none of those that had been before came to
name a node again when it did not. -/
structure NamesKept (t t' : Tree) : Prop where
  size_le : t.arena.slots.size ≤ t'.arena.slots.size
  get?_eq_none : ∀ {id : NodeId}, id.index < t.arena.slots.size → t.arena.get? id = none →
    t'.arena.get? id = none

namespace NamesKept

variable {t t' t'' : Tree}

theorem refl (t : Tree) : NamesKept t t where
  size_le := Nat.le_refl _
  get?_eq_none _ hgone := hgone

theorem trans (h : NamesKept t t') (h' : NamesKept t' t'') : NamesKept t t'' where
  size_le := Nat.le_trans h.size_le h'.size_le
  get?_eq_none hmade hgone :=
    h'.get?_eq_none (Nat.lt_of_lt_of_le hmade h.size_le) (h.get?_eq_none hmade hgone)

theorem append {data : String} (ht : t.Sound) (ho : t.Owned) (happend : t.append data = .ok t') :
    NamesKept t t' := by
  obtain ⟨hsize, hsame, hnew⟩ := append_edge ht ho happend
  refine ⟨hsize, fun {id} hmade hgone => ?_⟩
  rw [← Option.not_isSome_iff_eq_none, ho.append ht happend, stands_levels_iff]
  rw [← Option.not_isSome_iff_eq_none, ho, stands_levels_iff] at hgone
  rintro ⟨h, i, hid⟩
  cases hroom : t.isLeafFull with
  | false => exact hgone ⟨h, i, by rw [← (hsame hroom).slot?_eq, hid]⟩
  | true =>
      have hedge := hnew hroom
      exact hgone ⟨h, i, (slot?_of_index_lt hedge.slot?_eq hedge.exists_new hid hmade).2⟩

theorem tamper (t : Tree) (old new : String) : NamesKept t (t.tamper old new).1 := by
  rcases tamper_cases t old new with heq | ⟨id, n, forged, hn, heq⟩
  · rw [heq]
    exact refl t
  · rw [heq]
    refine ⟨Nat.le_of_eq (Arena.size_slots_set ..).symm, fun {other} _ hgone => ?_⟩
    rw [← Option.not_isSome_iff_eq_none, Arena.isSome_get?_set hn, hgone]
    exact Bool.false_ne_true

end NamesKept

/-- The search from the root ends for every name, after visits to the root and to branches, none of
them visited twice. What it finds for a name below the top level is the name over its place, and
always the one node of the arena that has the name for a child, if there is one: so nothing for the
root and for a name without a node. -/
structure FindsParents (t : Tree) : Prop where
  ends : ∀ target, ∃ visited, Traversal t.arena target t.root?.toList visited (t.parentOf? target) ∧
    visited.Nodup ∧
    (∀ id ∈ visited, t.root? = some id ∨ ∃ n, t.arena.get? id = some n ∧ n.isLeaf = false) ∧
    ∀ visits, searchParent t.arena target visits t.root?.toList = .outOfVisits ↔
      visits < visited.length
  slot : ∀ {h i : Nat} {id : NodeId}, t.slot? h i = some id → h + 1 < t.levels.length →
    ∃ parent, t.slot? (h + 1) (i / 2) = some parent ∧ t.parentOf? id = some parent
  child : ∀ {parent id : NodeId}, t.parentOf? id = some parent ↔
    ∃ n, t.arena.get? parent = some n ∧ id ∈ n.children
  root : ∀ {root : NodeId}, t.root? = some root → t.parentOf? root = none
  unknown : ∀ {id : NodeId}, t.arena.get? id = none → t.parentOf? id = none

section Sound

variable {t : Tree} {id parent : NodeId}

/-- A name stands over another just if its node has that one for a child. -/
theorem Sound.standsOver_iff (ht : t.Sound) (ho : t.Owned) :
    t.StandsOver parent id ↔ ∃ n, t.arena.get? parent = some n ∧ id ∈ n.children := by
  constructor
  · rintro ⟨h, i, hid, hparent⟩
    obtain ⟨n, hn, -⟩ := ht.exists_node hparent
    exact ⟨n, hn, (ht.standsOver_iff_mem_children hparent hn).1 ⟨h, i, hid, hparent⟩⟩
  · rintro ⟨n, hn, hchild⟩
    obtain ⟨h, i, hparent⟩ := stands_levels_iff.1 ((ho parent).1 (by rw [hn, Option.isSome_some]))
    exact (ht.standsOver_iff_mem_children hparent hn).2 hchild

theorem Sound.findsParents (ht : t.Sound) (ho : t.Owned) : t.FindsParents where
  ends target := by
    obtain ⟨visited, htraversal, hnodup, -⟩ := ht.exists_traversal target
    refine ⟨visited, htraversal, hnodup, fun id hid => ?_, htraversal.outOfVisits_iff⟩
    exact (htraversal.mem_or_isLeaf_eq_false id hid).imp_left fun hroot => by simpa using hroot
  slot {h i id} hid hbelow := by
    obtain ⟨parent, hparent⟩ := ht.exists_parent hid hbelow
    exact ⟨parent, hparent, ht.parentOf?_eq_some_iff.2 ⟨h, i, hid, hparent⟩⟩
  child := ht.parentOf?_eq_some_iff.trans (ht.standsOver_iff ho)
  root hroot := ht.parentOf?_eq_none_iff.2 fun _ => ht.not_standsOver_root hroot
  unknown {id} hgone := by
    rw [ht.parentOf?_eq_none_iff]
    rintro parent ⟨h, i, hid, -⟩
    obtain ⟨n, hn, -⟩ := ht.exists_node hid
    rw [hgone] at hn
    cases hn

end Sound

namespace Handled

theorem edit_namesKept {s s' : Handled} {e : Edit} (hs : s.Recorded) (ho : s.tree.Owned)
    (hedit : s.edit e = .ok s') :
    s'.Recorded ∧ s'.tree.Owned ∧ NamesKept s.tree s'.tree := by
  cases e with
  | append data =>
      obtain ⟨s₁, hedit₁, hs₁⟩ := hs.append data
      obtain ⟨t, happend, -⟩ := append_eq_ok hs.sound data
      rw [hedit, Except.ok.injEq] at hedit₁
      rw [edit_append happend, Except.ok.injEq] at hedit
      subst hedit₁ hedit
      exact ⟨hs₁, ho.append hs.sound happend, .append hs.sound ho happend⟩
  | tamper old new =>
      rw [edit, Except.ok.injEq] at hedit
      subst hedit
      exact ⟨hs.tamper old new, ho.tamper old new, .tamper s.tree old new⟩

theorem foldlM_edit_namesKept {s s' : Handled} {edits : List Edit} (hs : s.Recorded)
    (ho : s.tree.Owned) (hrun : edits.foldlM Handled.edit s = .ok s') :
    s'.Recorded ∧ s'.tree.Owned ∧ NamesKept s.tree s'.tree := by
  induction edits generalizing s with
  | nil =>
      cases hrun
      exact ⟨hs, ho, .refl _⟩
  | cons e edits ih =>
      obtain ⟨s₁, hedit, -⟩ := hs.edit e
      rw [List.foldlM_cons, hedit] at hrun
      obtain ⟨hs₁, ho₁, hkept⟩ := edit_namesKept hs ho hedit
      obtain ⟨hs', ho', hrest⟩ := ih hs₁ ho₁ hrun
      exact ⟨hs', ho', hkept.trans hrest⟩

/-- Where a run has come to after some of its edits, the rest of it goes on from. -/
theorem run_append {maxLeaves : Nat} {edits more : List Edit} {s : Handled}
    (hrun : run maxLeaves edits = .ok s) :
    run maxLeaves (edits ++ more) = more.foldlM Handled.edit s := by
  rw [run] at hrun
  rw [run, List.foldlM_append, hrun]
  rfl

/-- Whatever is appended to an empty tree and overwritten in it, in any order: no append fails, and
in the tree that it comes to the search for a parent ends and finds what `FindsParents` says. It
finds nothing for a name whose node was there at some time and was gone at a later one, for such
a name stays without a node, and nothing for a name that never had one. -/
theorem exists_run_findsParents (maxLeaves : Nat) (edits : List Edit) :
    ∃ s, run maxLeaves edits = .ok s ∧ s.tree.FindsParents ∧
      (∀ {before between after : List Edit} {s₁ s₂ : Handled} {id : NodeId},
        edits = before ++ between ++ after → run maxLeaves before = .ok s₁ →
        run maxLeaves (before ++ between) = .ok s₂ → (s₁.tree.arena.get? id).isSome →
        s₂.tree.arena.get? id = none →
        s.tree.arena.get? id = none ∧ s.tree.parentOf? id = none) ∧
      ∀ {id : NodeId}, (∀ {before after : List Edit} {s₁ : Handled}, edits = before ++ after →
        run maxLeaves before = .ok s₁ → s₁.tree.arena.get? id = none) →
        s.tree.parentOf? id = none := by
  have hempty := recorded_empty maxLeaves
  have hnone : (empty maxLeaves).tree.Owned := owned_withCapacity maxLeaves
  obtain ⟨s, hrun, hs⟩ := hempty.foldlM_edit edits
  obtain ⟨-, ho, -⟩ := foldlM_edit_namesKept hempty hnone hrun
  have hfinds := hs.sound.findsParents ho
  refine ⟨s, hrun, hfinds, ?_, fun hunmade => ?_⟩
  · rintro before between after s₁ s₂ id rfl hbefore hbetween hmade hgone
    obtain ⟨hs₁, ho₁, -⟩ := foldlM_edit_namesKept hempty hnone hbefore
    obtain ⟨hs₂, ho₂, hkept⟩ := foldlM_edit_namesKept hs₁ ho₁ (run_append hbefore ▸ hbetween)
    have hafter := (run_append hbetween).symm.trans hrun
    obtain ⟨-, -, hrest⟩ := foldlM_edit_namesKept hs₂ ho₂ hafter
    obtain ⟨n, hn⟩ := Option.isSome_iff_exists.1 hmade
    have hlt := Nat.lt_of_lt_of_le (Arena.lt_size_of_get? hn) hkept.size_le
    have hend := hrest.get?_eq_none hlt hgone
    exact ⟨hend, hfinds.unknown hend⟩
  · exact hfinds.unknown (hunmade (List.append_nil edits).symm hrun)

/-- Blocks that fill three leaves. -/
def threeLeaves : List Edit :=
  List.replicate 12 (.append "x")

/-- With a fourth leaf the root over three leaves is replaced, and then a block is overwritten. For
the name of the old root nothing is found any more, and for that of the new leaf the new node over
its place. -/
theorem exists_run_findsParents_replacedRoot :
    ∃ s₁ s, run 4 threeLeaves = .ok s₁ ∧ s₁.tree.root? = some ⟨5⟩ ∧
      run 4 (threeLeaves ++ [.append "x"] ++ [.tamper "x" "y"]) = .ok s ∧
      s.tree.arena.get? ⟨5⟩ = none ∧ s.tree.parentOf? ⟨5⟩ = none ∧
      s.tree.slot? 0 3 = some ⟨6⟩ ∧ s.tree.slot? 1 1 = some ⟨7⟩ ∧
      s.tree.parentOf? ⟨6⟩ = some ⟨7⟩ := by
  obtain ⟨s₁, hrun₁, -⟩ := exists_run_findsParents 4 threeLeaves
  obtain ⟨s₂, hrun₂, -⟩ := exists_run_findsParents 4 (threeLeaves ++ [.append "x"])
  obtain ⟨s, hrun, hfinds, hreplaced, -⟩ :=
    exists_run_findsParents 4 (threeLeaves ++ [.append "x"] ++ [.tamper "x" "y"])
  have hroot : (run 4 threeLeaves).map (fun s => (s.tree.root?, (s.tree.arena.get? ⟨5⟩).isSome)) =
      .ok (some ⟨5⟩, true) := rfl
  have hgone : (run 4 (threeLeaves ++ [.append "x"])).map (fun s => s.tree.arena.get? ⟨5⟩) =
      .ok none := rfl
  have hplaces : (run 4 (threeLeaves ++ [.append "x"] ++ [.tamper "x" "y"])).map
      (fun s => (s.tree.slot? 0 3, s.tree.slot? 1 1, s.tree.levels.length)) =
      .ok (some ⟨6⟩, some ⟨7⟩, 3) := rfl
  simp only [hrun₁, hrun₂, hrun, Except.map, Except.ok.injEq, Prod.mk.injEq] at hroot hgone hplaces
  obtain ⟨hleaf, hover, hlength⟩ := hplaces
  obtain ⟨hend, hnone⟩ := hreplaced rfl hrun₁ hrun₂ hroot.2 hgone
  obtain ⟨parent, hparent, hfound⟩ := hfinds.slot hleaf (by rw [hlength]; decide)
  rw [hover, Option.some.injEq] at hparent
  exact ⟨s₁, s, hrun₁, hroot.1, hrun, hend, hnone, hleaf, hover, by rw [hfound, hparent]⟩

end Handled

end Tree

end SealedLog
