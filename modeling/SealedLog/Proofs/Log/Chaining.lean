import SealedLog.Proofs.Log.Cut
import SealedLog.Proofs.Tree.Delimited

/-!
# What the last root of a chain binds

The first block of a tree is the root of the tree before, so a chain is bound by the root of its
last tree as far as that one binds its first block. The step from a tree to the one before is
`Valid.leafTexts_eq_or_collide`: full trees have the same number of levels, so those with one
root have the same leaf texts, and with them the same link to the tree before.

Where events delimit themselves the blocks follow from the leaf texts, tree by tree, and then
the trees of one journal extend those of the other. Events can be read off their trees,
`events_ofEvents`, so that journal begins with the other one.
-/

namespace SealedLog

namespace Batch

/-- The number of blocks is enough to know the number of levels. -/
theorem length_texts_congr {bs cs : List String} (h : bs.length = cs.length) :
    (texts bs).length = (texts cs).length := by
  apply length_textsOver_congr
  by_cases hnil : bs = []
  · subst hnil
    rw [List.eq_nil_of_length_eq_zero h.symm]
  · have hnil' : cs ≠ [] := by
      rintro rfl
      exact hnil (List.eq_nil_of_length_eq_zero h)
    rw [leafTexts, if_neg hnil, leafTexts, if_neg hnil', List.length_map, List.length_map,
      length_leaves, length_leaves, h]

/-- A hash that comes first can be read off the leaf texts. -/
theorem head?_eq_of_leafTexts_eq {bs cs : List String} {a b : Hash} (ha : a.length = 64)
    (hb : b.length = 64) (hbs : bs.head? = some a) (hcs : cs.head? = some b)
    (h : leafTexts bs = leafTexts cs) : a = b := by
  obtain ⟨bs, rfl⟩ := List.head?_eq_some_iff.1 hbs
  obtain ⟨cs, rfl⟩ := List.head?_eq_some_iff.1 hcs
  have hhead := congrArg List.head? h
  rw [head?_leafTexts, head?_leafTexts, Option.some.injEq, leafCapacity, List.take_succ_cons,
    List.take_succ_cons, String.join_cons, String.join_cons] at hhead
  have htexts := congrArg String.toList hhead
  rw [String.toList_append, String.toList_append] at htexts
  refine String.toList_injective (List.append_inj htexts ?_).1
  rw [String.length_toList, String.length_toList, ha, hb]

theorem length_root (bs : List String) : (root bs).length = 64 :=
  Digest.length_ofText _

end Batch

namespace Cut

open Batch Digest

/-- Every text that is hashed while the trees grow: those of each state of each tree. -/
def hashedTexts (T : List (List String)) : List String :=
  T.flatMap fun blocks => blocks.inits.flatMap fun bs => (texts bs).flatten

variable {S T : List (List String)} {i : Nat} {bs cs : List String}

theorem mem_hashedTexts (h : StateOf T i bs) :
    ∀ t ∈ (texts bs).flatten, t ∈ hashedTexts T := by
  obtain ⟨⟨blocks, hblocks, hpre⟩, -⟩ := h
  intro t ht
  exact List.mem_flatMap.2 ⟨blocks, List.mem_of_getElem? hblocks,
    List.mem_flatMap.2 ⟨bs, (List.mem_inits _ _).2 hpre, ht⟩⟩

theorem sameTexts_or_collide_of_stateOf {j : Nat} (hb : StateOf S i bs) (hc : StateOf T j cs)
    (hroot : root bs = root cs) :
    SameTexts bs cs ∨ Collide (hashedTexts S) (hashedTexts T) :=
  (sameTexts_or_collide hroot).imp id fun h => h.mono (mem_hashedTexts hb) (mem_hashedTexts hc)

variable {maxLeaves : Nat} {c c' : Cut}

/-- A state of a tree begins with the root of the tree before. -/
theorem Valid.head?_of_stateOf (h : c.Valid maxLeaves) (hbs : StateOf c.trees (i + 1) bs)
    {xs : List String} (hxs : c.trees[i]? = some xs) : bs.head? = some (root xs) := by
  obtain ⟨⟨blocks, hblocks, hpre⟩, hne⟩ := hbs
  obtain ⟨b, rest, rfl⟩ := List.exists_cons_of_ne_nil (hne (Nat.succ_pos i))
  obtain ⟨more, rfl⟩ := hpre
  have hlinked := h.linked hxs hblocks
  rwa [List.cons_append, List.head?_cons] at hlinked

/-- Trees with a tree behind them are full. -/
theorem Valid.length_eq_of_lt (h : c.Valid maxLeaves) {xs : List String}
    (hxs : c.trees[i]? = some xs) (hi : i < c.closed.length) :
    xs.length = capacity maxLeaves := by
  rw [getElem?_trees_of_lt hi] at hxs
  exact h.full (List.mem_of_getElem? hxs)

/-- From the leaf texts of one tree to those of all trees before it. -/
theorem Valid.leafTexts_eq_or_collide (h : c.Valid maxLeaves) (h' : c'.Valid maxLeaves)
    (hb : StateOf c.trees i bs) (hc : StateOf c'.trees i cs) (heq : leafTexts bs = leafTexts cs) :
    (∀ j < i, ∀ xs ys, c.trees[j]? = some xs → c'.trees[j]? = some ys →
      leafTexts xs = leafTexts ys) ∨ Collide (hashedTexts c.trees) (hashedTexts c'.trees) := by
  induction i generalizing bs cs with
  | zero => exact Or.inl fun j hj => absurd hj (Nat.not_lt_zero j)
  | succ i ih =>
      have hlt := hb.lt_length
      have hlt' := hc.lt_length
      rw [length_trees] at hlt hlt'
      obtain ⟨xs, hxs⟩ : ∃ xs, c.trees[i]? = some xs :=
        ⟨_, List.getElem?_eq_getElem (by rw [length_trees]; omega)⟩
      obtain ⟨ys, hys⟩ : ∃ ys, c'.trees[i]? = some ys :=
        ⟨_, List.getElem?_eq_getElem (by rw [length_trees]; omega)⟩
      have hroot : root xs = root ys :=
        head?_eq_of_leafTexts_eq (length_root xs) (length_root ys)
          (h.head?_of_stateOf hb hxs) (h'.head?_of_stateOf hc hys) heq
      rcases sameTexts_or_collide_of_stateOf (h.stateOf hxs) (h'.stateOf hys) hroot with
        hsame | hcol
      · have hleaves : leafTexts xs = leafTexts ys := by
          apply hsame.leafTexts_eq
          apply length_texts_congr
          rw [h.length_eq_of_lt hxs (by omega), h'.length_eq_of_lt hys (by omega)]
        rcases ih (h.stateOf hxs) (h'.stateOf hys) hleaves with hall | hcol
        · refine Or.inl fun j hj xs' ys' hxs' hys' => ?_
          rcases Nat.lt_or_eq_of_le (Nat.le_of_lt_succ hj) with hlt | rfl
          · exact hall j hlt xs' ys' hxs' hys'
          · rw [hxs, Option.some.injEq] at hxs'
            rw [hys, Option.some.injEq] at hys'
            rwa [← hxs', ← hys']
        · exact Or.inr hcol
      · exact Or.inr hcol

/-- The events in the trees: all blocks but the links. -/
def events (c : Cut) : List String :=
  c.trees.headD [] ++ c.trees.tail.flatMap List.tail

theorem events_next (c : Cut) : c.next.events = c.events := by
  obtain ⟨first, rest, hrest⟩ := List.exists_cons_of_ne_nil
    (show c.trees ≠ [] by simp [trees])
  rw [events, events, trees, closed_next, hrest]
  simp [Cut.next]

theorem events_push (hne : c.closed ≠ [] → c.current ≠ []) (payload : String) :
    (c.push payload).events = c.events ++ [payload] := by
  obtain ⟨closed, current⟩ := c
  cases closed with
  | nil => simp [events, trees, push]
  | cons first rest =>
      have htail : (current ++ [payload]).tail = current.tail ++ [payload] :=
        List.tail_append_of_ne_nil (hne (List.cons_ne_nil _ _))
      simp only [events, trees, push, List.cons_append, List.headD_cons, List.tail_cons,
        List.flatMap_append, List.flatMap_cons, List.flatMap_nil, List.append_nil,
        List.append_assoc, htail]

/-- The events that were cut into trees can be read off them. -/
theorem events_ofEvents (maxLeaves : Nat) (payloads : List String) :
    (ofEvents maxLeaves payloads).events = payloads := by
  induction payloads using List.reverseRecOn with
  | nil => rfl
  | append_singleton payloads payload ih =>
      have hvalid := (valid_ofEvents maxLeaves payloads).roll.1
      have hroll : ((ofEvents maxLeaves payloads).roll maxLeaves).events = payloads := by
        rw [roll]
        split
        · rw [events_next, ih]
        · exact ih
      rw [ofEvents_concat, add, events_push, hroll]
      intro hclosed
      exact hvalid.stateOf_current.2 (List.length_pos_iff.2 hclosed)

/-- All blocks of the first tree are events, and all but the first of the others. -/
theorem mem_events (hi : c.trees[i]? = some bs) :
    (∀ b ∈ bs.tail, b ∈ c.events) ∧ (i = 0 → ∀ b ∈ bs, b ∈ c.events) := by
  obtain ⟨first, rest, hrest⟩ := List.exists_cons_of_ne_nil
    (show c.trees ≠ [] by simp [trees])
  rw [events, hrest, List.headD_cons, List.tail_cons]
  rw [hrest] at hi
  cases i with
  | zero =>
      obtain rfl : first = bs := Option.some.inj hi
      exact ⟨fun b hb => List.mem_append_left _ (List.mem_of_mem_tail hb),
        fun _ b hb => List.mem_append_left _ hb⟩
  | succ i =>
      rw [List.getElem?_cons_succ] at hi
      exact ⟨fun b hb => List.mem_append_right _
        (List.mem_flatMap.2 ⟨bs, List.mem_of_getElem? hi, hb⟩), fun h => by cases h⟩

/-- The states of the trees are over the events that were cut. -/
theorem isOver_of_stateOf {payloads all : List String} (hall : ∀ e ∈ payloads, e ∈ all)
    (h : StateOf (ofEvents maxLeaves payloads).trees i bs) : IsOver all bs := by
  have hvalid := valid_ofEvents maxLeaves payloads
  obtain ⟨⟨blocks, hblocks, hpre⟩, hne⟩ := h
  obtain ⟨htail, hfirst⟩ := mem_events hblocks
  rw [events_ofEvents] at htail hfirst
  cases bs with
  | nil => exact ⟨by simp, by simp⟩
  | cons b rest =>
      obtain ⟨more, rfl⟩ := hpre
      have hrest : ∀ e ∈ rest, e ∈ all := fun e he =>
        hall e (htail e (List.mem_append_left more he))
      refine ⟨?_, hrest⟩
      intro e he
      rcases List.mem_cons.1 he with rfl | he
      · cases i with
        | zero => exact Or.inl (hall e (hfirst rfl e (by simp)))
        | succ i =>
            have hlt := (List.getElem?_eq_some_iff.1 hblocks).1
            have hlinked := hvalid.linked
              (List.getElem?_eq_getElem (Nat.lt_of_succ_lt hlt)) hblocks
            rw [List.cons_append, List.head?_cons, Option.some.injEq] at hlinked
            exact Or.inr ⟨_, hlinked⟩
      · exact Or.inl (hrest e he)

/-- Trees that extend those of other events were cut from more events. -/
theorem events_prefix (h : Extends c.trees c'.trees) : c.events <+: c'.events := by
  obtain ⟨ds, hds, hpre, -⟩ := h _ _ (getElem?_trees_length c)
  obtain ⟨more, rfl⟩ := hpre
  have hlt := (List.getElem?_eq_some_iff.1 hds).1
  have hfront : c'.trees.take c.closed.length = c.closed := by
    apply List.ext_getElem?
    intro j
    by_cases hj : j < c.closed.length
    · have hbs := List.getElem?_eq_getElem hj
      rw [← getElem?_trees_of_lt hj] at hbs
      obtain ⟨es, hes, -, hfinal⟩ := h j _ hbs
      rw [hfinal (by rw [length_trees]; omega)] at hes
      rw [List.getElem?_take_of_lt hj, hes, ← hbs, getElem?_trees_of_lt hj]
    · rw [List.getElem?_eq_none (by rw [List.length_take]; omega),
        List.getElem?_eq_none (by omega)]
  obtain ⟨rest, hrest⟩ : ∃ rest, c'.trees = c.closed ++ (c.current ++ more) :: rest := by
    refine ⟨c'.trees.drop (c.closed.length + 1), ?_⟩
    have hsplit := List.take_append_drop c.closed.length c'.trees
    rw [List.drop_eq_getElem_cons hlt, (List.getElem?_eq_some_iff.1 hds).2, hfront] at hsplit
    exact hsplit.symm
  rw [events, events, hrest, trees]
  cases c.closed with
  | nil =>
      refine ⟨more ++ rest.flatMap List.tail, ?_⟩
      simp
  | cons first others =>
      have htail : c.current.tail <+: (c.current ++ more).tail := by
        cases c.current with
        | nil => exact List.nil_prefix
        | cons b bs => exact List.prefix_append bs more
      obtain ⟨further, hfurther⟩ := htail
      refine ⟨further ++ rest.flatMap List.tail, ?_⟩
      simp [← hfurther]

/-- Leaf by leaf the same texts, up to the state `bs` of the tree of `c'` that has the index of
the current one of `c`. -/
structure SameLeaves (c c' : Cut) (bs : List String) : Prop where
  current : leafTexts c.current = leafTexts bs
  closed : ∀ j < c.closed.length, ∀ xs ys, c.trees[j]? = some xs → c'.trees[j]? = some ys →
    leafTexts xs = leafTexts ys

/-- What two chains have in common if the current tree of `c` and the state `bs` of the tree of
that index in `c'` have one root: the texts of these, and where they have as many levels, the
texts of all leaves. -/
structure Agrees (c c' : Cut) (bs : List String) : Prop where
  state : StateOf c'.trees c.closed.length bs
  sameTexts : SameTexts c.current bs
  sameLeaves : (texts c.current).length = (texts bs).length → SameLeaves c c' bs

theorem Valid.agrees_or_collide (h : c.Valid maxLeaves) (h' : c'.Valid maxLeaves)
    (hbs : StateOf c'.trees c.closed.length bs) (hroot : root c.current = root bs) :
    Agrees c c' bs ∨ Collide (hashedTexts c.trees) (hashedTexts c'.trees) := by
  by_cases hcol : Collide (hashedTexts c.trees) (hashedTexts c'.trees)
  · exact Or.inr hcol
  have hsame := (sameTexts_or_collide_of_stateOf h.stateOf_current hbs hroot).resolve_right hcol
  refine Or.inl ⟨hbs, hsame, fun hlevels => ⟨hsame.leafTexts_eq hlevels, ?_⟩⟩
  exact (h.leafTexts_eq_or_collide h' h.stateOf_current hbs
    (hsame.leafTexts_eq hlevels)).resolve_right hcol

section Agrees

variable {payloads payloads' : List String}

/-- Where no event looks like a hash, all leaves have the same texts. -/
theorem Agrees.sameLeaves_of_plain
    (h : Agrees (ofEvents maxLeaves payloads) (ofEvents maxLeaves payloads') bs)
    (hplain : Plain (payloads ++ payloads')) :
    SameLeaves (ofEvents maxLeaves payloads) (ofEvents maxLeaves payloads') bs := by
  apply h.sameLeaves
  refine hplain.length_texts_eq ?_ ?_ h.sameTexts
  · exact isOver_of_stateOf (fun e he => List.mem_append_left _ he)
      (valid_ofEvents maxLeaves payloads).stateOf_current
  · exact isOver_of_stateOf (fun e he => List.mem_append_right _ he) h.state

/-- Where events delimit themselves, all blocks are the same up to the state, and so are the
events. -/
theorem Agrees.prefix_of_delimited
    (h : Agrees (ofEvents maxLeaves payloads) (ofEvents maxLeaves payloads') bs)
    (hdel : Delimited (payloads ++ payloads')) : payloads <+: payloads' := by
  have hvalid := valid_ofEvents maxLeaves payloads
  have hvalid' := valid_ofEvents maxLeaves payloads'
  have hleaves := h.sameLeaves_of_plain hdel.plain
  have hblocks : ∀ {i : Nat} {xs ys : List String},
      StateOf (ofEvents maxLeaves payloads).trees i xs →
      StateOf (ofEvents maxLeaves payloads').trees i ys → leafTexts xs = leafTexts ys →
        xs = ys := fun hx hy =>
    hdel.eq_of_leafTexts_eq
      (isOver_of_stateOf (fun e he => List.mem_append_left _ he) hx).word
      (isOver_of_stateOf (fun e he => List.mem_append_right _ he) hy).word
  have hextends : Extends (ofEvents maxLeaves payloads).trees
      (ofEvents maxLeaves payloads').trees := by
    intro j xs hxs
    have hlt := (List.getElem?_eq_some_iff.1 hxs).1
    have hlength := h.state.lt_length
    rw [length_trees] at hlt
    by_cases hj : j < (ofEvents maxLeaves payloads).closed.length
    · obtain ⟨ys, hys⟩ : ∃ ys, (ofEvents maxLeaves payloads').trees[j]? = some ys :=
        ⟨_, List.getElem?_eq_getElem (by omega)⟩
      obtain rfl := hblocks (hvalid.stateOf hxs) (hvalid'.stateOf hys)
        (hleaves.closed j hj xs ys hxs hys)
      exact ⟨xs, hys, List.prefix_refl xs, fun _ => rfl⟩
    · obtain rfl : j = (ofEvents maxLeaves payloads).closed.length := by omega
      rw [getElem?_trees_length, hblocks hvalid.stateOf_current h.state hleaves.current,
        Option.some.injEq] at hxs
      subst hxs
      obtain ⟨⟨ys, hys, hpre⟩, -⟩ := h.state
      exact ⟨ys, hys, hpre, fun h => by rw [length_trees] at h; omega⟩
  have hbegins := events_prefix hextends
  rwa [events_ofEvents, events_ofEvents] at hbegins

end Agrees

end Cut

end SealedLog
