import SealedLog.Proofs.Log.Reporting
import SealedLog.Proofs.Log.Outcome

/-!
# Where an event goes

The place of an event in a log that was started empty depends on the number of events that were
accepted before it, and on nothing else: not on what they are, nor on how often a write or a
rollover failed in between. The first tree has room for `capacity` events. Every later one
begins with its link and has room for one event less, and it is opened by the first event that
goes into it.

A cut has the same sizes after the same number of events (`Sized`), and the place of the next
event can be read off the sizes (`Cut.place`); `placeOf` is the closed form.

Main statement: `place_of_start`.
-/

namespace SealedLog

/-- What a receipt says of the place of its event, apart from hashes: the tree, the leaf and the
tree that was sealed to make room. -/
structure Place where
  treeIndex : Nat
  leafIndex : Nat
  sealedIndex? : Option Nat
deriving DecidableEq, Repr

def Receipt.place (r : Receipt) : Place :=
  ⟨r.treeIndex, r.leafIndex, r.sealedTree?.map SealedTree.treeIndex⟩

open Cut

/-- The place of an event before which `n` events were accepted. -/
def placeOf (maxLeaves n : Nat) : Place :=
  let first := capacity maxLeaves
  let later := first - 1
  if n < first then ⟨0, n / leafCapacity, none⟩
  else
    ⟨(n - first) / later + 1, ((n - first) % later + 1) / leafCapacity,
      if (n - first) % later = 0 then some ((n - first) / later) else none⟩

example : (List.range 9).map (placeOf 1) =
    [⟨0, 0, none⟩, ⟨0, 0, none⟩, ⟨0, 0, none⟩, ⟨0, 0, none⟩, ⟨1, 0, some 0⟩, ⟨1, 0, none⟩,
      ⟨1, 0, none⟩, ⟨2, 0, some 1⟩, ⟨2, 0, none⟩] := by decide

namespace Cut

/-- How many trees `n` events fill, and how many blocks the current one has then: in the first
tree there are events only, in a later one `j + 1` of them behind the link. -/
inductive Sized (maxLeaves n : Nat) (c : Cut) : Prop
  | first (le : n ≤ capacity maxLeaves) (closed : c.closed.length = 0)
      (current : c.current.length = n)
  | later (k j : Nat) (lt : j + 1 < capacity maxLeaves)
      (count : n = capacity maxLeaves + (capacity maxLeaves - 1) * k + (j + 1))
      (closed : c.closed.length = k + 1) (current : c.current.length = j + 2)

variable {maxLeaves n : Nat} {c : Cut}

theorem two_le_capacity (maxLeaves : Nat) : 2 ≤ capacity maxLeaves := by
  simp only [capacity, leafCapacity]
  omega

theorem length_current_next (c : Cut) : c.next.current.length = 1 := rfl

theorem Sized.add (h : c.Sized maxLeaves n) (payload : String) :
    (c.add maxLeaves payload).Sized maxLeaves (n + 1) := by
  have htwo := two_le_capacity maxLeaves
  have hpush : ∀ c : Cut, (c.push payload).current.length = c.current.length + 1 := fun c => by
    rw [push, List.length_append, List.length_singleton]
  rw [Cut.add]
  by_cases hfull : capacity maxLeaves ≤ c.current.length
  · have hclosed : (c.next.push payload).closed.length = c.closed.length + 1 := by
      rw [closed_push, closed_next, length_trees]
    have hcurrent := hpush c.next
    rw [length_current_next] at hcurrent
    rw [roll, if_pos hfull]
    cases h with
    | first le closed current =>
        exact .later 0 0 (by omega) (by omega) (by omega) hcurrent
    | later k j lt count closed current =>
        -- the events of the tree that is left, one less than its blocks
        have hcount : (capacity maxLeaves - 1) * (k + 1) =
            (capacity maxLeaves - 1) * k + (j + 1) := by
          rw [Nat.mul_succ]
          omega
        exact .later (k + 1) 0 (by omega) (by omega) (by omega) hcurrent
  · have hcurrent := hpush c
    rw [roll, if_neg hfull]
    cases h with
    | first le closed current => exact .first (by omega) closed (by omega)
    | later k j lt count closed current =>
        exact .later k (j + 1) (by omega) (by omega) closed (by omega)

theorem sized_ofEvents (maxLeaves : Nat) (events : List String) :
    (ofEvents maxLeaves events).Sized maxLeaves events.length := by
  induction events using List.reverseRecOn with
  | nil => exact .first (Nat.zero_le _) rfl rfl
  | append_singleton events payload ih =>
      rw [ofEvents_concat, List.length_append, List.length_singleton]
      exact ih.add payload

/-- Where the next event goes. -/
def place (maxLeaves : Nat) (c : Cut) : Place :=
  ⟨(c.roll maxLeaves).closed.length, (c.roll maxLeaves).current.length / leafCapacity,
    if capacity maxLeaves ≤ c.current.length then some c.closed.length else none⟩

theorem place_of_lt (h : c.current.length < capacity maxLeaves) :
    c.place maxLeaves = ⟨c.closed.length, c.current.length / leafCapacity, none⟩ := by
  rw [place, roll, if_neg (Nat.not_le.2 h), if_neg (Nat.not_le.2 h)]

theorem place_of_le (h : capacity maxLeaves ≤ c.current.length) :
    c.place maxLeaves = ⟨c.closed.length + 1, 0, some c.closed.length⟩ := by
  rw [place, roll, if_pos h, if_pos h, closed_next, length_trees, length_current_next]
  rfl

/-- The closed form for an event that goes into a later tree, as the `m`-th of its events. -/
theorem placeOf_later {k m : Nat} (h : m < capacity maxLeaves - 1) :
    placeOf maxLeaves (capacity maxLeaves + (capacity maxLeaves - 1) * k + m) =
      ⟨k + 1, (m + 1) / leafCapacity, if m = 0 then some k else none⟩ := by
  have hrest : capacity maxLeaves + (capacity maxLeaves - 1) * k + m - capacity maxLeaves =
      m + (capacity maxLeaves - 1) * k := by omega
  obtain ⟨hdiv, hmod⟩ := (Nat.div_mod_unique (a := m + (capacity maxLeaves - 1) * k)
    (Nat.zero_lt_of_lt h)).2 ⟨rfl, h⟩
  rw [placeOf, if_neg (by omega), hrest, hdiv, hmod]

theorem Sized.place_eq (h : c.Sized maxLeaves n) : c.place maxLeaves = placeOf maxLeaves n := by
  have htwo := two_le_capacity maxLeaves
  cases h with
  | first le closed current =>
      rcases Nat.lt_or_eq_of_le le with hlt | rfl
      · rw [place_of_lt (by omega), placeOf, if_pos hlt, closed, current]
      · have hpos : 0 < capacity maxLeaves - 1 := by omega
        have hlater := placeOf_later (k := 0) hpos
        rw [Nat.mul_zero, Nat.add_zero, Nat.add_zero] at hlater
        rw [place_of_le (by omega), hlater, closed]
        rfl
  | later k j lt count closed current =>
      by_cases hfull : capacity maxLeaves ≤ c.current.length
      · -- the tree is full: the event is the first of the next one
        have hnext : n = capacity maxLeaves + (capacity maxLeaves - 1) * (k + 1) + 0 := by
          rw [Nat.mul_succ]
          omega
        rw [place_of_le hfull, hnext, placeOf_later (by omega), closed]
        rfl
      · rw [place_of_lt (by omega), count, placeOf_later (by omega), closed, current,
          if_neg (Nat.succ_ne_zero j)]

end Cut

namespace Log

/-- The receipt that comes with an outcome, also with one that reports a failed write. -/
def receipt? : Except LogError Receipt → Option Receipt
  | .ok receipt => some receipt
  | .error (.persistence _ receipt? _) => receipt?
  | .error _ => none

variable {config : LogConfig} {c : Cut} {log log' : Log} {payload : String} {receipt : Receipt}

/-- A tree is named as sealed if the one before the event was full. -/
theorem Added.sealedIndex?_eq {sealedTree? : Option SealedTree}
    (h : Added log payload log' sealedTree?) :
    sealedTree?.map SealedTree.treeIndex =
      if log.tree.isFull then some log.treeIndex else none := by
  cases h with
  | grown room => simp [room]
  | opened full => simp [full]

/-- The receipt of an event names the place that the cut has for it. -/
theorem Taken.place_eq (h : Taken log payload receipt log') (hc : c.Valid config.maxLeavesPerTree)
    (hlog : log.Follows config c)
    (hlog' : log'.Follows config (c.add config.maxLeavesPerTree payload)) :
    receipt.place = c.place config.maxLeavesPerTree := by
  have htree : receipt.treeIndex = (c.roll config.maxLeavesPerTree).closed.length := by
    rw [h.treeIndex_eq, hlog'.treeIndex_eq, Cut.add, closed_push]
  have hleaf : receipt.leafIndex =
      (c.roll config.maxLeavesPerTree).current.length / leafCapacity := by
    have hcount := h.leafIndex_eq
    rw [hlog'.holds.leafCount_eq, Cut.add, push, List.length_append, List.length_singleton]
      at hcount
    simp only [leafCapacity] at hcount ⊢
    omega
  rw [Receipt.place, htree, hleaf, h.added.sealedIndex?_eq, hlog.treeIndex_eq, place]
  simp only [hlog.isFull_iff hc]

variable {σ : Type} [SnapshotStore σ] [LawfulStore σ]

/-- Recording an event comes with a receipt exactly if the event is accepted, and then the log
has the event. -/
theorem Told.receipt?_cases {store store' : σ} {now : Nat}
    {outcome : Except LogError Receipt} (h : Told log store now payload outcome log' store') :
    (∃ receipt, receipt? outcome = some receipt ∧ accepted outcome = true ∧
      Taken log payload receipt log') ∨
    receipt? outcome = none ∧ accepted outcome = false := by
  cases h with
  | written taken => exact Or.inl ⟨_, rfl, rfl, taken⟩
  | unwritten taken => exact Or.inl ⟨_, rfl, rfl, taken⟩
  | refused => exact Or.inr ⟨rfl, rfl⟩

/-- Any call of a run from an empty log that records an event comes with a receipt exactly if the
event is accepted, and the receipt puts it where the number of events accepted before says. -/
theorem place_of_start {store opened : σ} {now : Nat}
    (hstart : start store config now = (.ok log, opened)) (calls : List Call) {s : Session σ}
    (hs : (Session.mk log opened []).run calls = s) (time : Nat) (payload : String) :
    (receipt? (s.log.record s.store time payload).1).map Receipt.place =
      if accepted (s.log.record s.store time payload).1 then
        some (placeOf config.maxLeavesPerTree s.accepted.length)
      else none := by
  subst hs
  have hreachable := Reachable.run (s := ⟨log, opened, []⟩) (.recover hstart) calls
  have hholding := Holding.run (s := ⟨log, opened, []⟩) (.recover hstart) calls
  generalize (Session.mk log opened []).run calls = s at hreachable hholding ⊢
  have hfollows := hholding.follows
  have hvalid := valid_ofEvents config.maxLeavesPerTree s.accepted
  have hnext := hfollows.record_follows hvalid s.store time payload
  obtain ⟨outcome, log', store', hrecord, htold⟩ := hreachable.record_told s.store time payload
  rw [hrecord] at hnext ⊢
  rcases htold.receipt?_cases with ⟨receipt, hreceipt, haccepted, htaken⟩ | ⟨hnone, hrefused⟩
  · rw [if_pos haccepted] at hnext
    rw [hreceipt, if_pos haccepted, Option.map_some, htaken.place_eq hvalid hfollows hnext,
      (sized_ofEvents config.maxLeavesPerTree s.accepted).place_eq]
  · rw [hnone, if_neg (by rw [hrefused]; exact Bool.false_ne_true)]
    rfl

/-- The first event behind a full tree, which was refused once before: it goes to the second
place of the next tree, and the first one is sealed for it. -/
theorem place_refusing :
    start (Watched.ofInner refusing) ⟨1⟩ 0 = (.ok refusedLog.1, refusedLog.2) ∧
    ∃ s, (Session.mk refusedLog.1 refusedLog.2 []).run (refusedCalls.take 6) = s ∧
      (receipt? (s.log.record s.store 7 "x").1).map Receipt.place = some ⟨1, 0, some 0⟩ := by
  refine ⟨start_refusing, _, rfl, ?_⟩
  rw [place_of_start start_refusing (refusedCalls.take 6) rfl]
  decide +kernel

end Log

end SealedLog
