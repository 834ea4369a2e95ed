import SealedLog.Json.Value
import Mathlib.Data.List.Sort
import Mathlib.Data.String.Basic

/-!
# Values with sorted members

A value that was put into order, `canonical`, has the members of every object sorted by name
without repetition, and putting it into order once more changes nothing: `Ordered` is what such
values have in common, and the form in which a program holds parameters, whatever the text was
that it read them from.

Proofs about values go by `induct`, in which a value is a scalar, an array of which the items
have the property, or an object of which the members have.
-/

namespace SealedLog.Json

/-- A value without parts. -/
def IsScalar : Json → Prop
  | .arr _ => False
  | .obj _ => False
  | _ => True

@[elab_as_elim]
theorem induct {motive : Json → Prop} (scalar : ∀ j : Json, j.IsScalar → motive j)
    (arr : ∀ items : List Json, (∀ j ∈ items, motive j) → motive (.arr items))
    (obj : ∀ members : List (String × Json), (∀ m ∈ members, motive m.2) →
      motive (.obj members)) : ∀ j : Json, motive j
  | .arr items => arr items fun j _ => induct scalar arr obj j
  | .obj members => obj members fun m _ => induct scalar arr obj m.2
  | .null => scalar _ trivial
  | .bool _ => scalar _ trivial
  | .int _ => scalar _ trivial
  | .real _ => scalar _ trivial
  | .str _ => scalar _ trivial
termination_by j => sizeOf j
decreasing_by
  · have hlt := List.sizeOf_lt_of_mem ‹j ∈ items›
    simp only [Json.arr.sizeOf_spec]
    omega
  · have hlt := List.sizeOf_lt_of_mem ‹m ∈ members›
    obtain ⟨name, j⟩ := m
    simp only [Json.obj.sizeOf_spec, Prod.mk.sizeOf_spec] at hlt ⊢
    omega

/-- The members are sorted by name, and no two of them have the same name. -/
def Sorted (members : List (String × Json)) : Prop :=
  members.Pairwise (·.1 < ·.1)

/-- The members of every object in the value are sorted. -/
inductive Ordered : Json → Prop
  | scalar {j : Json} (isScalar : j.IsScalar) : Ordered j
  | arr {items : List Json} (ordered : ∀ j ∈ items, Ordered j) : Ordered (.arr items)
  | obj {members : List (String × Json)} (sorted : Sorted members)
      (ordered : ∀ m ∈ members, Ordered m.2) : Ordered (.obj members)

variable {items : List Json} {members done : List (String × Json)} {name : String} {value : Json}

theorem Ordered.of_mem_items (h : Ordered (.arr items)) : ∀ j ∈ items, Ordered j := by
  cases h with
  | scalar h => exact h.elim
  | arr h => exact h

theorem Ordered.sorted_members (h : Ordered (.obj members)) : Sorted members := by
  cases h with
  | scalar h => exact h.elim
  | obj h _ => exact h

theorem Ordered.of_mem_members (h : Ordered (.obj members)) : ∀ m ∈ members, Ordered m.2 := by
  cases h with
  | scalar h => exact h.elim
  | obj _ h => exact h

/-- Sorted members with the same names have them in the same order. -/
theorem Sorted.map_fst_eq {members' : List (String × Json)} (h : Sorted members)
    (h' : Sorted members')
    (hnames : ∀ name, name ∈ members.map Prod.fst ↔ name ∈ members'.map Prod.fst) :
    members.map Prod.fst = members'.map Prod.fst := by
  have hsorted : (members.map Prod.fst).Pairwise (· < ·) := List.pairwise_map.2 h
  have hsorted' : (members'.map Prod.fst).Pairwise (· < ·) := List.pairwise_map.2 h'
  exact hsorted.eq_of_mem_iff hsorted' @hnames

/-- Sorted members are told apart by their names. -/
theorem Sorted.eq_of_mem {value' : Json} (h : Sorted members) (hmem : (name, value) ∈ members)
    (hmem' : (name, value') ∈ members) : value = value' := by
  have hnodup : (members.map Prod.fst).Nodup :=
    List.pairwise_map.2 (h.imp fun hlt => hlt.ne)
  exact (Prod.mk.inj (List.inj_on_of_nodup_map hnodup hmem hmem' rfl)).2

/-! ### Putting into order -/

theorem canonical_scalar {j : Json} (h : j.IsScalar) : j.canonical = j := by
  cases j with
  | arr _ => exact h.elim
  | obj _ => exact h.elim
  | _ => rfl

theorem canonicalItems_eq (items : List Json) : canonicalItems items = items.map canonical := by
  induction items with
  | nil => rfl
  | cons j items ih => rw [canonicalItems, ih, List.map_cons]

theorem mem_insertMember {m : String × Json} (h : m ∈ insertMember name value members) :
    m = (name, value) ∨ m ∈ members := by
  induction members with
  | nil => exact Or.inl (List.mem_singleton.1 h)
  | cons first members ih =>
      rw [insertMember] at h
      split at h
      · exact List.mem_cons.1 h
      · split at h
        · exact (List.mem_cons.1 h).imp id (List.mem_cons_of_mem _)
        · rcases List.mem_cons.1 h with rfl | h
          · exact Or.inr List.mem_cons_self
          · exact (ih h).imp id (List.mem_cons_of_mem _)

theorem Sorted.insertMember (h : Sorted members) :
    Sorted (insertMember name value members) := by
  induction members with
  | nil => exact List.pairwise_singleton _ _
  | cons first members ih =>
      obtain ⟨n, v⟩ := first
      obtain ⟨hfirst, hrest⟩ := List.pairwise_cons.1 h
      rw [Json.insertMember]
      split
      next hlt =>
        refine List.pairwise_cons.2 ⟨fun m hm => ?_, h⟩
        rcases List.mem_cons.1 hm with rfl | hm
        · exact hlt
        · exact hlt.trans (hfirst m hm)
      next hnlt =>
        split
        next heq =>
          subst heq
          exact List.pairwise_cons.2 ⟨hfirst, hrest⟩
        next hne =>
          refine List.pairwise_cons.2 ⟨fun m hm => ?_, ih hrest⟩
          rcases mem_insertMember hm with rfl | hm
          · exact lt_of_le_of_ne (not_lt.1 hnlt) (Ne.symm hne)
          · exact hfirst m hm

/-- A member whose name comes after all others is put at the end. -/
theorem insertMember_of_lt (h : ∀ m ∈ members, m.1 < name) :
    insertMember name value members = members ++ [(name, value)] := by
  induction members with
  | nil => rfl
  | cons first members ih =>
      obtain ⟨n, v⟩ := first
      have hlt : n < name := h (n, v) List.mem_cons_self
      rw [insertMember, if_neg hlt.asymm, if_neg hlt.ne', ih fun m hm =>
        h m (List.mem_cons_of_mem _ hm), List.cons_append]

/-- Inserting members keeps the members sorted and their values in order. -/
theorem ordered_canonicalMembers (hdone : Ordered (.obj done))
    (h : ∀ m ∈ members, Ordered m.2.canonical) :
    Ordered (.obj (canonicalMembers done members)) := by
  induction members generalizing done with
  | nil => exact hdone
  | cons m members ih =>
      rw [canonicalMembers]
      refine ih (.obj hdone.sorted_members.insertMember fun m' hm' => ?_) fun m' hm' =>
        h m' (List.mem_cons_of_mem _ hm')
      rcases mem_insertMember hm' with rfl | hm'
      · exact h m List.mem_cons_self
      · exact hdone.of_mem_members m' hm'

theorem ordered_canonical (j : Json) : j.canonical.Ordered := by
  induction j using induct with
  | scalar j h =>
      rw [canonical_scalar h]
      exact .scalar h
  | arr items ih =>
      rw [canonical, canonicalItems_eq]
      refine .arr fun j hj => ?_
      obtain ⟨j, hmem, rfl⟩ := List.mem_map.1 hj
      exact ih j hmem
  | obj members ih =>
      rw [canonical]
      exact ordered_canonicalMembers (.obj .nil fun m hm => absurd hm List.not_mem_nil) ih

/-- Sorted members are inserted one behind the other. -/
theorem canonicalMembers_eq (hsorted : Sorted (done ++ members))
    (h : ∀ m ∈ members, m.2.canonical = m.2) :
    canonicalMembers done members = done ++ members := by
  induction members generalizing done with
  | nil => rw [canonicalMembers, List.append_nil]
  | cons m members ih =>
      obtain ⟨name, j⟩ := m
      have hlt : ∀ m ∈ done, m.1 < name := fun m hm =>
        (List.pairwise_append.1 hsorted).2.2 m hm _ List.mem_cons_self
      rw [List.append_cons] at hsorted
      rw [canonicalMembers, h _ List.mem_cons_self, insertMember_of_lt hlt, ih hsorted fun m hm =>
        h m (List.mem_cons_of_mem _ hm), ← List.append_cons]

theorem Ordered.canonical_eq {j : Json} (h : j.Ordered) : j.canonical = j := by
  induction h with
  | scalar h => exact canonical_scalar h
  | @arr items _ ih =>
      rw [canonical, canonicalItems_eq, List.map_congr_left ih, List.map_id']
  | obj sorted _ ih =>
      rw [canonical, canonicalMembers_eq (by rwa [List.nil_append]) ih, List.nil_append]

end SealedLog.Json
