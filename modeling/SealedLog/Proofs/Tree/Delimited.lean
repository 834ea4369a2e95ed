import SealedLog.Proofs.Tree.Binding
import SealedLog.Text.Hex

/-!
# Events that delimit themselves

A root leaves two things open that texts like JSON objects settle. `Plain` events are not empty
and do not begin as a hash does, so the text of a leaf cannot be that of a branch,
`leafTexts_ne_textsAbove`, and a root says how many levels there are. `Delimited` ones besides
are never the beginning of another, so a text of events and hashes run together can be read in
one way only, `join_injective`, and the blocks can be read off the leaf texts. With both a tree
is known by its root.
-/

namespace SealedLog

namespace Hex

def digits : List Char :=
  ['0', '1', '2', '3', '4', '5', '6', '7', '8', '9', 'a', 'b', 'c', 'd', 'e', 'f']

theorem digitChar_mem_digits : ∀ n < 16, Nat.digitChar n ∈ digits := by decide

theorem nibble_mem_digits (w shift : UInt32) : nibble w shift ∈ digits := by
  apply digitChar_mem_digits
  rw [UInt32.toNat_and]
  exact Nat.lt_of_le_of_lt Nat.and_le_right (by decide)

end Hex

theorem Digest.head?_ofText (text : String) :
    ∃ digit ∈ Hex.digits, (ofText text).toList.head? = some digit := by
  refine ⟨_, Hex.nibble_mem_digits (Sha256.digest text.toUTF8).a 28, ?_⟩
  rw [ofText, Sha256.hex, String.toList_ofList]
  rfl

/-- No event is empty or begins as a hash does. -/
def Plain (events : List String) : Prop :=
  ∀ e ∈ events, ∃ first, e.toList.head? = some first ∧ first ∉ Hex.digits

/-- The events are plain and none is the beginning of another. -/
structure Delimited (events : List String) : Prop where
  plain : Plain events
  eq_of_prefix : ∀ a ∈ events, ∀ b ∈ events, a.toList <+: b.toList → a = b

/-- What can stand in a tree over the events: one of them, or a hash. -/
def IsWord (events : List String) (w : String) : Prop :=
  w ∈ events ∨ ∃ text, w = Digest.ofText text

variable {events : List String}

theorem Plain.ne_ofText (h : Plain events) {e : String} (he : e ∈ events) (text : String) :
    e ≠ Digest.ofText text := by
  rintro rfl
  obtain ⟨first, hfirst, hnot⟩ := h _ he
  obtain ⟨digit, hdigit, hhead⟩ := Digest.head?_ofText text
  rw [hhead, Option.some.injEq] at hfirst
  exact hnot (hfirst ▸ hdigit)

/-- An event and a hash are told apart by how they begin. -/
theorem Plain.exists_head? (h : Plain events) {w : String} (hw : IsWord events w) :
    ∃ first, w.toList.head? = some first ∧ (w ∈ events ↔ first ∉ Hex.digits) := by
  rcases hw with hw | ⟨text, rfl⟩
  · obtain ⟨first, hfirst, hnot⟩ := h w hw
    exact ⟨first, hfirst, iff_of_true hw hnot⟩
  · obtain ⟨digit, hdigit, hhead⟩ := Digest.head?_ofText text
    exact ⟨digit, hhead, iff_of_false (fun hmem => h.ne_ofText hmem text rfl)
      (not_not_intro hdigit)⟩

namespace Delimited

/-- No word is the beginning of another word: an event and a hash begin differently, and
hashes have one length. -/
theorem eq_of_prefix_word (h : Delimited events) {v w : String} (hv : IsWord events v)
    (hw : IsWord events w) (hbegins : v.toList <+: w.toList) : v = w := by
  obtain ⟨first, hfirst, hviff⟩ := h.plain.exists_head? hv
  obtain ⟨first', hfirst', hwiff⟩ := h.plain.exists_head? hw
  obtain rfl : first = first' := by
    obtain ⟨rest, hrest⟩ := hbegins
    rw [← hrest, List.head?_append, hfirst, Option.some_or, Option.some.injEq] at hfirst'
    exact hfirst'
  rcases hv with hv | ⟨text, rfl⟩
  · exact h.eq_of_prefix v hv w (hwiff.2 (hviff.1 hv)) hbegins
  · rcases hw with hw | ⟨text', rfl⟩
    · exact absurd (hviff.2 (hwiff.1 hw)) fun hmem => h.plain.ne_ofText hmem text rfl
    · apply String.toList_injective
      refine hbegins.eq_of_length ?_
      rw [String.length_toList, String.length_toList, Digest.length_ofText,
        Digest.length_ofText]

/-- Words that run together to one text are the same words. -/
theorem join_injective (h : Delimited events) {as bs : List String}
    (ha : ∀ a ∈ as, IsWord events a) (hb : ∀ b ∈ bs, IsWord events b)
    (heq : String.join as = String.join bs) : as = bs := by
  have hne : ∀ {w : String} {ws : List String}, IsWord events w →
      String.join (w :: ws) ≠ "" := by
    intro w ws hw hnil
    obtain ⟨first, hfirst, -⟩ := h.plain.exists_head? hw
    rw [String.join_cons, ← String.toList_inj, String.toList_append] at hnil
    rw [(List.append_eq_nil_iff.1 hnil).1] at hfirst
    cases hfirst
  induction as generalizing bs with
  | nil =>
      cases bs with
      | nil => rfl
      | cons b bs => exact absurd heq.symm (hne (hb b (by simp)))
  | cons a as ih =>
      cases bs with
      | nil => exact absurd heq (hne (ha a (by simp)))
      | cons b bs =>
          have htexts := congrArg String.toList heq
          rw [String.join_cons, String.join_cons, String.toList_append,
            String.toList_append] at htexts
          have hfirst : a = b := by
            rcases List.prefix_or_prefix_of_prefix (List.prefix_append a.toList _)
                (htexts ▸ List.prefix_append b.toList (String.join bs).toList) with hpre | hpre
            · exact h.eq_of_prefix_word (ha a (by simp)) (hb b (by simp)) hpre
            · exact (h.eq_of_prefix_word (hb b (by simp)) (ha a (by simp)) hpre).symm
          subst hfirst
          have hrest := String.toList_injective (List.append_cancel_left htexts)
          rw [ih (fun c hc => ha c (by simp [hc])) (fun c hc => hb c (by simp [hc])) hrest]

end Delimited

namespace Batch

theorem head?_leafTexts (bs : List String) :
    (leafTexts bs).head? = some (String.join (bs.take leafCapacity)) := by
  by_cases h : bs = []
  · subst h
    rfl
  · rw [leafTexts, if_neg h, leaves_of_ne_nil h]
    rfl

/-- Every level but the lowest hashes the hashes of two nodes at least. -/
theorem exists_textsAbove_of_mem_tail (ts : List String) :
    ∀ level ∈ (textsOver ts).tail, ∃ us, 1 < us.length ∧ level = textsAbove us := by
  induction ts using textsOver.induct with
  | case1 ts hle =>
      rw [textsOver_of_le hle]
      simp
  | case2 ts hlt ih =>
      rw [textsOver_of_lt (by omega), List.tail_cons]
      intro level hlevel
      obtain ⟨rest, hrest⟩ := List.head?_eq_some_iff.1 (head?_textsOver (textsAbove ts))
      rw [hrest, List.mem_cons] at hlevel
      rcases hlevel with rfl | hlevel
      · exact ⟨ts, by omega, rfl⟩
      · exact ih level (by rwa [hrest])

/-- The blocks of a tree over the events: events, but for a hash that may come first. -/
structure IsOver (events bs : List String) : Prop where
  word : ∀ b ∈ bs, IsWord events b
  event : ∀ b ∈ bs.tail, b ∈ events

end Batch

namespace Delimited

open Batch

variable {events bs cs : List String}

theorem map_join_injective (h : Delimited events) {xs ys : List (List String)}
    (hx : ∀ leaf ∈ xs, ∀ b ∈ leaf, IsWord events b)
    (hy : ∀ leaf ∈ ys, ∀ b ∈ leaf, IsWord events b)
    (heq : xs.map String.join = ys.map String.join) : xs = ys := by
  induction xs generalizing ys with
  | nil =>
      rw [List.map_nil, eq_comm, List.map_eq_nil_iff] at heq
      exact heq.symm
  | cons x xs ih =>
      cases ys with
      | nil => simp at heq
      | cons y ys =>
          rw [List.map_cons, List.map_cons, List.cons.injEq] at heq
          rw [h.join_injective (hx x (by simp)) (hy y (by simp)) heq.1,
            ih (fun leaf hleaf => hx leaf (by simp [hleaf]))
              (fun leaf hleaf => hy leaf (by simp [hleaf])) heq.2]

/-- The blocks can be read off the texts of the leaves. -/
theorem eq_of_leafTexts_eq (h : Delimited events) (hb : ∀ b ∈ bs, IsWord events b)
    (hc : ∀ c ∈ cs, IsWord events c) (heq : leafTexts bs = leafTexts cs) : bs = cs := by
  have hhead := congrArg List.head? heq
  rw [head?_leafTexts, head?_leafTexts, Option.some.injEq] at hhead
  have hfirst := h.join_injective (fun b hmem => hb b (List.mem_of_mem_take hmem))
    (fun c hmem => hc c (List.mem_of_mem_take hmem)) hhead
  by_cases hnil : bs = []
  · subst hnil
    rw [List.take_nil, eq_comm, List.take_eq_nil_iff] at hfirst
    exact (hfirst.resolve_left (by decide)).symm
  · have hnil' : cs ≠ [] := by
      rintro rfl
      rw [List.take_nil, List.take_eq_nil_iff] at hfirst
      exact hnil (hfirst.resolve_left (by decide))
    rw [leafTexts, if_neg hnil, leafTexts, if_neg hnil'] at heq
    have hleaves := h.map_join_injective
      (fun leaf hleaf b hmem => hb b (by
        rw [← flatten_leaves bs]
        exact List.mem_flatten_of_mem hleaf hmem))
      (fun leaf hleaf c hmem => hc c (by
        rw [← flatten_leaves cs]
        exact List.mem_flatten_of_mem hleaf hmem)) heq
    rw [← flatten_leaves bs, hleaves, flatten_leaves]

end Delimited

namespace Plain

open Batch

variable {bs cs : List String}

/-- The text of a branch is two hashes, and in a leaf only the first block is one. -/
theorem leafTexts_ne_textsAbove (h : Plain events) (hb : IsOver events bs) {us : List String}
    (hus : 1 < us.length) : leafTexts bs ≠ textsAbove us := by
  obtain ⟨u, v, rest, rfl⟩ : ∃ u v rest, us = u :: v :: rest := by
    match us, hus with
    | u :: v :: rest, _ => exact ⟨u, v, rest, rfl⟩
  intro heq
  have hhead := congrArg List.head? heq
  rw [head?_leafTexts, textsAbove, List.map_cons, List.map_cons, pairTexts, List.head?_cons,
    Option.some.injEq] at hhead
  have htexts := congrArg String.toList hhead
  have hlength := congrArg String.length hhead
  rw [String.length_append, Digest.length_ofText, Digest.length_ofText] at hlength
  obtain ⟨digit, hdigit, hu⟩ := Digest.head?_ofText u
  obtain ⟨digit', hdigit', hv⟩ := Digest.head?_ofText v
  rw [String.toList_append] at htexts
  cases bs with
  | nil => simp at hlength
  | cons b rest' =>
      rw [leafCapacity, List.take_succ_cons, String.join_cons] at hlength htexts
      rw [String.toList_append] at htexts
      rcases hb.word b (by simp) with hb' | ⟨text, rfl⟩
      · obtain ⟨first, hfirst, hnot⟩ := h b hb'
        have hsame := congrArg List.head? htexts
        rw [List.head?_append, List.head?_append, hfirst, hu, Option.some_or, Option.some_or,
          Option.some.injEq] at hsame
        exact hnot (hsame ▸ hdigit)
      · -- behind the link there must be an event, but it would begin with the second hash
        have hsecond := (List.append_inj htexts (by
          rw [String.length_toList, String.length_toList, Digest.length_ofText,
            Digest.length_ofText])).2
        cases rest' with
        | nil =>
            rw [String.length_append, Digest.length_ofText] at hlength
            simp at hlength
        | cons e more =>
            obtain ⟨first, hfirst, hnot⟩ := h e (hb.event e (by simp))
            have hsame := congrArg List.head? hsecond
            rw [List.take_succ_cons, String.join_cons, String.toList_append, List.head?_append,
              hfirst, hv, Option.some_or, Option.some.injEq] at hsame
            exact hnot (hsame ▸ hdigit')

theorem length_texts_eq_of_suffix (h : Plain events) (hb : IsOver events bs)
    (hsuffix : texts bs <:+ texts cs) : (texts bs).length = (texts cs).length := by
  obtain ⟨above, habove⟩ := List.head?_eq_some_iff.1 (head?_textsOver (leafTexts bs))
  obtain ⟨above', habove'⟩ := List.head?_eq_some_iff.1 (head?_textsOver (leafTexts cs))
  rw [texts, texts, habove, habove', List.suffix_cons_iff] at hsuffix
  rcases hsuffix with heq | hsuffix
  · rw [texts, texts, habove, habove', heq]
  · have hmem : leafTexts bs ∈ (textsOver (leafTexts cs)).tail := by
      rw [habove']
      exact hsuffix.subset (by simp)
    obtain ⟨us, hus, heq⟩ := exists_textsAbove_of_mem_tail _ _ hmem
    exact absurd heq (h.leafTexts_ne_textsAbove hb hus)

/-- Trees over plain events with the same texts have as many levels. -/
theorem length_texts_eq (h : Plain events) (hb : IsOver events bs) (hc : IsOver events cs)
    (hsame : SameTexts bs cs) : (texts bs).length = (texts cs).length := by
  rcases hsame with hsuffix | hsuffix
  · exact h.length_texts_eq_of_suffix hb hsuffix
  · exact (h.length_texts_eq_of_suffix hc hsuffix).symm

end Plain

end SealedLog
