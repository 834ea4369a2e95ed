import SealedLog.Proofs.Log.Replaying
import SealedLog.Service.Recording

/-!
# Requests side by side

Requests to record arrive at a service at any time, and each is taken a step further at any
time at which it does not have to wait. `Traffic` is the service with all requests that have
arrived, and a list of `Move`s is one way in which things may happen; which statements the
database refuses and which writes the store fails is part of it. The database has a
constraint: no event has two rows. Whichever numbers it passes over, the order in which the
rows came is that of their numbers (`numbered_run`). What a step of a request can be is listed
once, in `State.Advances`.

`Orderly` is what every order of the moves keeps. A request with the lock is alone with it,
and what the log has accepted and what the journal holds differ by that request's row and,
once the fence is set, by rows at the end of the journal. It is kept as long as no row is
inserted while the fence is set. A recovery then finds nothing that the journal does not
explain.
-/

namespace SealedLog.Service

open Cut

structure Request (ι : Type) where
  event : ι
  payload : String
  progress : Progress ι

/-- A service and the requests that have arrived, in that order. -/
structure Traffic (σ ι : Type) where
  state : State σ ι
  requests : List (Request ι)

/-- The next thing that happens at a service. -/
inductive Move (ι : Type) where
  | arrive (event : ι) (payload : String)
  /-- The request at that place is taken one step further, unless it has to wait. -/
  | advance (place : Nat) (mishaps : Mishaps) (now : Nat)

namespace Progress

variable {ι : Type}

/-- The request has the lock. -/
def hasLock : Progress ι → Bool
  | .aboutToInsert | .aboutToRecord _ | .aboutToDelete _ => true
  | .arrived | .waitingForLock | .answered _ => false

/-- The request has a row in the journal that is not decided on. -/
def hasRow : Progress ι → Bool
  | .aboutToRecord _ | .aboutToDelete _ => true
  | .arrived | .waitingForLock | .aboutToInsert | .answered _ => false

/-- The request is past the fence and has its row still to insert. -/
def willInsert : Progress ι → Bool
  | .waitingForLock | .aboutToInsert => true
  | .arrived | .aboutToRecord _ | .aboutToDelete _ | .answered _ => false

theorem hasLock_of_hasRow {p : Progress ι} (h : p.hasRow = true) : p.hasLock = true := by
  cases p <;> first | rfl | cases h

end Progress

namespace Journal

variable {ι : Type}

theorem rows_insert (j : Journal ι) (event : ι) (payload : String) :
    (j.insert event payload).1.rows = j.rows ++ [⟨j.nextSeq, event, payload⟩] := rfl

theorem rows_insert_ne (j : Journal ι) (event : ι) (payload : String) :
    (j.insert event payload).1.rows ≠ j.rows := fun h => by
  have hlength := congrArg List.length h
  rw [rows_insert, List.length_append, List.length_singleton] at hlength
  omega

/-- The rows stand in the order of their numbers, all of which are spent. -/
structure Numbered (j : Journal ι) : Prop where
  ordered : j.rows.Pairwise (·.seq < ·.seq)
  spent : ∀ row ∈ j.rows, row.seq < j.nextSeq

namespace Numbered

variable {j : Journal ι}

theorem skip (h : j.Numbered) (count : Nat) : (j.skip count).Numbered :=
  ⟨h.ordered, fun row hrow => Nat.lt_add_right count (h.spent row hrow)⟩

theorem insert (h : j.Numbered) (event : ι) (payload : String) :
    (j.insert event payload).1.Numbered := by
  constructor
  · rw [rows_insert, List.pairwise_append]
    refine ⟨h.ordered, List.pairwise_singleton _ _, fun row hrow new hnew => ?_⟩
    rw [List.mem_singleton.1 hnew]
    exact h.spent row hrow
  · intro row hrow
    rcases List.mem_append.1 hrow with hrow | hrow
    · exact Nat.lt_succ_of_lt (h.spent row hrow)
    · rw [List.mem_singleton.1 hrow]
      exact Nat.lt_succ_self _

theorem delete [BEq ι] (h : j.Numbered) (event : ι) : (j.delete event).Numbered :=
  ⟨h.ordered.filter _, fun row hrow => h.spent row (List.mem_of_mem_filter hrow)⟩

end Numbered

variable [DecidableEq ι]

def holds (j : Journal ι) (event : ι) : Bool :=
  j.rows.any (·.event == event)

theorem holds_eq_false_iff {j : Journal ι} {event : ι} :
    j.holds event = false ↔ ∀ row ∈ j.rows, row.event ≠ event := by
  simp [holds]

/-- Removing a row that was inserted for an event without one gives the rows before. -/
theorem rows_delete {j : Journal ι} {rows : List (Row ι)} {event : ι} {payload : String}
    {seq : Nat} (hrows : j.rows = rows ++ [⟨seq, event, payload⟩])
    (hfresh : ∀ row ∈ rows, row.event ≠ event) : (j.delete event).rows = rows := by
  have hfilter : rows.filter (·.event != event) = rows :=
    List.filter_eq_self.2 fun row hrow => bne_iff_ne.2 (hfresh row hrow)
  simp [delete, hrows, hfilter]

end Journal

namespace State

variable {σ ι : Type} [SnapshotStore σ]

/-- A step of a request, by what happens at it. -/
inductive Advances [BEq ι] (s : State σ ι) (mishaps : Mishaps) (now : Nat) (event : ι)
    (payload : String) : Progress ι → State σ ι → Progress ι → Prop
  | turnedAway (fenced : s.fenced = true) :
      Advances s mishaps now event payload .arrived s
        (.answered (.failed (.unavailable fencedMessage)))
  | passed (unfenced : s.fenced = false) :
      Advances s mishaps now event payload .arrived s .waitingForLock
  | locked (free : s.locked = false) :
      Advances s mishaps now event payload .waitingForLock { s with locked := true } .aboutToInsert
  | notInserted (refused : mishaps.insertRefused = true) :
      Advances s mishaps now event payload .aboutToInsert
        { s with journal := s.journal.skip mishaps.skipped, locked := false }
        (.answered (.failed (.unavailable (Refusal.message ⟨.insert⟩))))
  | inserted (taken : mishaps.insertRefused = false) :
      Advances s mishaps now event payload .aboutToInsert
        { s with journal := ((s.journal.skip mishaps.skipped).insert event payload).1 }
        (.aboutToRecord ((s.journal.skip mishaps.skipped).insert event payload).2)
  | recorded {seq : Nat} {s' : State σ ι} {p' : Progress ι}
      (settled : s.recordAndSettle now event payload seq = (s', p')) :
      Advances s mishaps now event payload (.aboutToRecord seq) s' p'
  | notDeleted {reply : Reply} (refused : mishaps.deleteRefused = true) :
      Advances s mishaps now event payload (.aboutToDelete reply)
        { s with fenced := true, locked := false } (.answered (.failed reply))
  | deleted {reply : Reply} (taken : mishaps.deleteRefused = false) :
      Advances s mishaps now event payload (.aboutToDelete reply)
        { s with journal := s.journal.delete event, locked := false } (.answered (.failed reply))

section Advances

variable [BEq ι] {s s' : State σ ι} {mishaps : Mishaps} {now : Nat} {event : ι} {payload : String}
  {p p' : Progress ι}

theorem advance_eq_some_iff : s.advance mishaps now event payload p = some (s', p') ↔
    s.Advances mishaps now event payload p s' p' := by
  constructor
  · intro h
    cases p with
    | arrived =>
        simp only [advance] at h
        split at h <;> cases h
        next hfenced => exact .turnedAway hfenced
        next hunfenced => exact .passed (Bool.eq_false_iff.2 hunfenced)
    | waitingForLock =>
        simp only [advance] at h
        split at h <;> cases h
        next hfree => exact .locked (Bool.eq_false_iff.2 hfree)
    | aboutToInsert =>
        simp only [advance] at h
        split at h <;> cases h
        next hrefused => exact .notInserted hrefused
        next htaken => exact .inserted (Bool.eq_false_iff.2 htaken)
    | aboutToRecord seq => exact .recorded (Option.some.inj h)
    | aboutToDelete reply =>
        simp only [advance] at h
        split at h <;> cases h
        next hrefused => exact .notDeleted hrefused
        next htaken => exact .deleted (Bool.eq_false_iff.2 htaken)
    | answered a => cases h
  · intro h
    cases h with
    | recorded hsettled => rw [advance, hsettled]
    | turnedAway hcase | passed hcase | locked hcase | notInserted hcase | inserted hcase
    | notDeleted hcase | deleted hcase =>
        rw [advance, hcase]
        rfl

omit [BEq ι] in
theorem journal_recordAndSettle (s : State σ ι) (now : Nat) (event : ι) (payload : String)
    (seq : Nat) : (s.recordAndSettle now event payload seq).1.journal = s.journal := by
  simp only [recordAndSettle]
  cases settle (s.log.record s.store now payload).1 <;> rfl

theorem Advances.numbered (h : s.Advances mishaps now event payload p s' p')
    (hnumbered : s.journal.Numbered) : s'.journal.Numbered := by
  cases h with
  | turnedAway | passed | locked | notDeleted => exact hnumbered
  | notInserted => exact hnumbered.skip _
  | inserted => exact (hnumbered.skip _).insert event payload
  | deleted => exact hnumbered.delete event
  | @recorded seq _ _ hsettled =>
      have hsame := s.journal_recordAndSettle now event payload seq
      rw [hsettled] at hsame
      exact hsame ▸ hnumbered

end Advances

end State

namespace Traffic

variable {σ ι : Type}

def ofState (s : State σ ι) : Traffic σ ι :=
  ⟨s, []⟩

variable [SnapshotStore σ] [DecidableEq ι]

/-- What goes wrong for a request: the database refuses a row for an event that has one. -/
def mishapsFor (t : Traffic σ ι) (event : ι) (mishaps : Mishaps) : Mishaps :=
  { mishaps with insertRefused := mishaps.insertRefused || t.state.journal.holds event }

def step (t : Traffic σ ι) : Move ι → Traffic σ ι
  | .arrive event payload => { t with requests := t.requests ++ [⟨event, payload, .arrived⟩] }
  | .advance place mishaps now =>
    match t.requests[place]? with
    | none => t
    | some r =>
      match t.state.advance (t.mishapsFor r.event mishaps) now r.event r.payload r.progress with
      | none => t
      | some (state, progress) => ⟨state, t.requests.set place { r with progress }⟩

def run (t : Traffic σ ι) (moves : List (Move ι)) : Traffic σ ι :=
  moves.foldl step t

/-- The rows do not change while the fence is set. -/
def HeedsFence : Traffic σ ι → List (Move ι) → Prop
  | _, [] => True
  | t, m :: moves =>
    (t.state.fenced = true → (t.step m).state.journal.rows = t.state.journal.rows) ∧
      (t.step m).HeedsFence moves

theorem step_advance {t : Traffic σ ι} {place : Nat} {r : Request ι}
    (hr : t.requests[place]? = some r) {mishaps : Mishaps} {now : Nat} {s : State σ ι}
    {p : Progress ι} (h : t.state.Advances (t.mishapsFor r.event mishaps) now r.event r.payload
      r.progress s p) :
    t.step (.advance place mishaps now) = ⟨s, t.requests.set place { r with progress := p }⟩ := by
  simp only [step, hr, State.advance_eq_some_iff.2 h]

/-- A request is taken further, or there is none at the place or it has to wait. -/
theorem step_advance_cases (t : Traffic σ ι) (place : Nat) (mishaps : Mishaps) (now : Nat) :
    t.step (.advance place mishaps now) = t ∨
    ∃ r s p, t.requests[place]? = some r ∧
      t.state.Advances (t.mishapsFor r.event mishaps) now r.event r.payload r.progress s p ∧
      t.step (.advance place mishaps now) = ⟨s, t.requests.set place { r with progress := p }⟩ := by
  cases hr : t.requests[place]? with
  | none => exact Or.inl (by simp only [step, hr])
  | some r =>
      cases hadvance : t.state.advance (t.mishapsFor r.event mishaps) now r.event r.payload
          r.progress with
      | none => exact Or.inl (by simp only [step, hr, hadvance])
      | some next =>
          have hadvances := State.advance_eq_some_iff.1 hadvance
          exact Or.inr ⟨r, next.1, next.2, rfl, hadvances, step_advance hr hadvances⟩

theorem numbered_step {t : Traffic σ ι} (h : t.state.journal.Numbered) (m : Move ι) :
    (t.step m).state.journal.Numbered := by
  cases m with
  | arrive event payload => exact h
  | advance place mishaps now =>
      rcases t.step_advance_cases place mishaps now with heq | ⟨r, s, p, -, hadvances, heq⟩
      · rwa [heq]
      · rw [heq]
        exact hadvances.numbered h

/-- Whatever happens, the order of the rows is that of their numbers. -/
theorem numbered_run {t : Traffic σ ι} (h : t.state.journal.Numbered) (moves : List (Move ι)) :
    (t.run moves).state.journal.Numbered := by
  induction moves generalizing t with
  | nil => exact h
  | cons m moves ih => exact ih (numbered_step h m)

instance decidableHeedsFence :
    (t : Traffic σ ι) → (moves : List (Move ι)) → Decidable (t.HeedsFence moves)
  | _, [] => isTrue trivial
  | t, m :: moves =>
    have := decidableHeedsFence (t.step m) moves
    inferInstanceAs (Decidable (_ ∧ _))

end Traffic

/-- The row of a request is the last of the journal, and the rows before it are those of the
events in the tree, none of them for the same event. -/
structure Undecided {σ ι : Type} (accepted : List String) (s : State σ ι) (event : ι)
    (payload : String) : Prop where
  unfenced : s.fenced = false
  rows : ∃ front seq, s.journal.rows = front ++ [⟨seq, event, payload⟩] ∧
    front.map Row.payload = accepted ∧ ∀ row ∈ front, row.event ≠ event

/-- The journal begins with the events in the tree, and has no more than these unless the
fence is set. -/
structure Settled {σ ι : Type} (accepted : List String) (s : State σ ι) : Prop where
  starts : accepted <+: s.journal.payloads
  payloads_eq : s.fenced = false → s.journal.payloads = accepted

/-- The traffic at a service whose log has the events `accepted`. -/
structure Orderly {σ ι : Type} [SnapshotStore σ] [LawfulStore σ] (config : LogConfig)
    (accepted : List String) (t : Traffic σ ι) : Prop where
  sound : Log.Sound config (ofEvents config.maxLeavesPerTree accepted) t.state.log
    (contents t.state.store)
  locked_iff : t.state.locked = true ↔ ∃ r ∈ t.requests, r.progress.hasLock = true
  alone : ∀ {i j : Nat} {r q : Request ι}, t.requests[i]? = some r → t.requests[j]? = some q →
    r.progress.hasLock = true → q.progress.hasLock = true → i = j
  undecided : ∀ r ∈ t.requests, r.progress.hasRow = true →
    Undecided accepted t.state r.event r.payload
  settled : (∀ r ∈ t.requests, r.progress.hasRow = false) → Settled accepted t.state

namespace Orderly

variable {σ ι : Type} [SnapshotStore σ] [LawfulStore σ] {config : LogConfig}
  {accepted : List String} {t : Traffic σ ι}

/-- However things stand, the events in the tree are the first ones of the journal. -/
theorem prefix_payloads (h : Orderly config accepted t) :
    accepted <+: t.state.journal.payloads := by
  by_cases hrow : ∃ r ∈ t.requests, r.progress.hasRow = true
  · obtain ⟨r, hr, hrow⟩ := hrow
    obtain ⟨front, seq, hrows, rfl, -⟩ := (h.undecided r hr hrow).rows
    rw [Journal.payloads, hrows, List.map_append]
    exact List.prefix_append _ _
  · push Not at hrow
    exact (h.settled fun r hr => by simpa using hrow r hr).starts

/-- Once the fence is set no row is left to be decided on. -/
theorem hasRow_eq_false (h : Orderly config accepted t) (hfenced : t.state.fenced = true) :
    ∀ r ∈ t.requests, r.progress.hasRow = false := by
  intro r hr
  cases hrow : r.progress.hasRow with
  | false => rfl
  | true =>
      rw [(h.undecided r hr hrow).unfenced] at hfenced
      cases hfenced

/-- A recovery from the journal finds nothing in the store, whichever holds it in whatever
order, that the journal does not explain. -/
theorem recover_ne {τ : Type} [SnapshotStore τ] [LawfulStore τ] (h : Orderly config accepted t)
    {current : τ} (hcontents : (contents current).Perm (contents t.state.store))
    (now index : Nat) (detail : String) :
    (Log.recover current config now t.state.journal.payloads).1 ≠
      .error (.recoveryInconsistency index detail) := by
  have hlegitimate : Legitimate
      (ofEvents config.maxLeavesPerTree t.state.journal.payloads).trees (contents current) :=
    fun s hs => h.sound.legitimate.mono (extends_ofEvents _ h.prefix_payloads) s
      (hcontents.mem_iff.1 hs)
  rcases Log.recover_cases current config now t.state.journal.payloads with
    ⟨log, store', hrecover, -⟩ | ⟨reason, store', hrecover, -⟩ |
      ⟨index', detail', store', hrecover, hnot⟩
  · rw [hrecover]
    exact fun h => by cases h
  · rw [hrecover]
    exact fun h => by cases h
  · exact absurd hlegitimate hnot

/-- Only the request with the lock is about to do something to the journal or the log. -/
theorem others (h : Orderly config accepted t) {i j : Nat} {r q : Request ι}
    (hr : t.requests[i]? = some r) (hlock : r.progress.hasLock = true ∨ t.state.locked = false)
    (hq : t.requests[j]? = some q) (hij : j ≠ i) : q.progress.hasLock = false := by
  cases hother : q.progress.hasLock with
  | false => rfl
  | true =>
      rcases hlock with hlock | hfree
      · exact absurd (h.alone hq hr hother hlock) hij
      · rw [h.locked_iff.2 ⟨q, List.mem_of_getElem? hq, hother⟩] at hfree
        cases hfree

/-- A request without a row that has the lock, or may have it, finds the journal settled. -/
theorem settled_of (h : Orderly config accepted t) {i : Nat} {r : Request ι}
    (hr : t.requests[i]? = some r) (hlock : r.progress.hasLock = true ∨ t.state.locked = false)
    (hnone : r.progress.hasRow = false) : Settled accepted t.state := by
  refine h.settled fun q hq => ?_
  obtain ⟨j, hj⟩ := List.getElem?_of_mem hq
  by_cases hij : j = i
  · subst hij
    rw [hr] at hj
    cases hj
    exact hnone
  · cases hrow : q.progress.hasRow with
    | false => rfl
    | true =>
        have hnot := h.others hr hlock hj hij
        rw [Progress.hasLock_of_hasRow hrow] at hnot
        cases hnot

/-- The step of a request that has or takes the lock. -/
theorem set (h : Orderly config accepted t) {i : Nat} {r : Request ι}
    (hr : t.requests[i]? = some r) (hlock : r.progress.hasLock = true ∨ t.state.locked = false)
    {accepted' : List String} {s : State σ ι} {p : Progress ι}
    (hsound : Log.Sound config (ofEvents config.maxLeavesPerTree accepted') s.log
      (contents s.store))
    (hlocked : s.locked = p.hasLock)
    (hundecided : p.hasRow = true → Undecided accepted' s r.event r.payload)
    (hsettled : p.hasRow = false → Settled accepted' s) :
    Orderly config accepted' ⟨s, t.requests.set i { r with progress := p }⟩ := by
  have hlt := (List.getElem?_eq_some_iff.1 hr).1
  have hself : (t.requests.set i { r with progress := p })[i]? = some { r with progress := p } :=
    List.getElem?_set_self hlt
  have hother : ∀ {j : Nat} {q : Request ι}, j ≠ i →
      (t.requests.set i { r with progress := p })[j]? = some q → q.progress.hasLock = false := by
    intro j q hij hq
    rw [List.getElem?_set_ne hij.symm] at hq
    exact h.others hr hlock hq hij
  refine ⟨hsound, ?_, ?_, ?_, ?_⟩
  · rw [hlocked]
    constructor
    · exact fun hp => ⟨_, List.mem_of_getElem? hself, hp⟩
    · rintro ⟨q, hq, hqlock⟩
      obtain ⟨j, hj⟩ := List.getElem?_of_mem hq
      by_cases hij : j = i
      · subst hij
        rw [hself] at hj
        cases hj
        exact hqlock
      · rw [hother hij hj] at hqlock
        cases hqlock
  · intro j k q q' hq hq' hqlock hqlock'
    have hplace : ∀ {j : Nat} {q : Request ι},
        (t.requests.set i { r with progress := p })[j]? = some q → q.progress.hasLock = true →
          j = i := by
      intro j q hq hqlock
      by_contra hij
      rw [hother hij hq] at hqlock
      cases hqlock
    rw [hplace hq hqlock, hplace hq' hqlock']
  · intro q hq hrow
    obtain ⟨j, hj⟩ := List.getElem?_of_mem hq
    by_cases hij : j = i
    · subst hij
      rw [hself] at hj
      cases hj
      exact hundecided hrow
    · have hnot := hother hij hj
      rw [Progress.hasLock_of_hasRow hrow] at hnot
      cases hnot
  · exact fun hnone => hsettled (hnone _ (List.mem_of_getElem? hself))

/-- Requests without the lock may come and go. -/
theorem of_hasLock (h : Orderly config accepted t) {requests : List (Request ι)}
    (hsame : ∀ {j : Nat} {q : Request ι}, q.progress.hasLock = true →
      (requests[j]? = some q ↔ t.requests[j]? = some q)) :
    Orderly config accepted ⟨t.state, requests⟩ := by
  have hmem : ∀ {q : Request ι}, q.progress.hasLock = true →
      (q ∈ requests ↔ q ∈ t.requests) := fun hq => by
    simp only [List.mem_iff_getElem?, hsame hq]
  refine ⟨h.sound, ?_, ?_, ?_, ?_⟩
  · rw [h.locked_iff]
    exact ⟨fun ⟨r, hr, hlock⟩ => ⟨r, (hmem hlock).2 hr, hlock⟩,
      fun ⟨r, hr, hlock⟩ => ⟨r, (hmem hlock).1 hr, hlock⟩⟩
  · exact fun hr hq hlock hlock' =>
      h.alone ((hsame hlock).1 hr) ((hsame hlock').1 hq) hlock hlock'
  · exact fun r hr hrow =>
      h.undecided r ((hmem (Progress.hasLock_of_hasRow hrow)).1 hr) hrow
  · intro hnone
    refine h.settled fun r hr => ?_
    cases hrow : r.progress.hasRow with
    | false => rfl
    | true => rw [← hrow, hnone r ((hmem (Progress.hasLock_of_hasRow hrow)).2 hr)]

theorem arrive (h : Orderly config accepted t) (event : ι) (payload : String) :
    Orderly config accepted ⟨t.state, t.requests ++ [⟨event, payload, .arrived⟩]⟩ := by
  refine h.of_hasLock fun {j q} hlock => ?_
  rw [List.getElem?_append]
  split
  · rfl
  next hle =>
    rw [List.getElem?_eq_none (l := t.requests) (by omega), List.getElem?_singleton]
    split
    · refine ⟨fun hq => ?_, nofun⟩
      cases hq
      cases hlock
    · rfl

theorem look (h : Orderly config accepted t) {i : Nat} {r : Request ι} {p : Progress ι}
    (hr : t.requests[i]? = some r) (hold : r.progress.hasLock = false)
    (hnew : p.hasLock = false) :
    Orderly config accepted ⟨t.state, t.requests.set i { r with progress := p }⟩ := by
  refine h.of_hasLock fun {j q} hlock => ?_
  rw [List.getElem?_set]
  split
  next hij =>
    subst hij
    rw [hr, if_pos (List.getElem?_eq_some_iff.1 hr).1]
    constructor
    · intro hq
      cases hq
      rw [hnew] at hlock
      cases hlock
    · intro hq
      cases hq
      rw [hold] at hlock
      cases hlock
  · rfl

section Steps

variable {i : Nat} {r : Request ι}

theorem lock (h : Orderly config accepted t) (hr : t.requests[i]? = some r)
    (hprogress : r.progress = .waitingForLock) (hfree : t.state.locked = false) :
    Orderly config accepted ⟨{ t.state with locked := true },
      t.requests.set i { r with progress := .aboutToInsert }⟩ := by
  have hsettled := h.settled_of hr (Or.inr hfree) (by rw [hprogress]; rfl)
  exact h.set hr (Or.inr hfree) h.sound rfl nofun fun _ =>
    ⟨hsettled.starts, hsettled.payloads_eq⟩

theorem giveUp (h : Orderly config accepted t) (hr : t.requests[i]? = some r)
    (hprogress : r.progress = .aboutToInsert) (count : Nat) (a : Answer ι) :
    Orderly config accepted
      ⟨{ t.state with journal := t.state.journal.skip count, locked := false },
        t.requests.set i { r with progress := .answered a }⟩ := by
  have hlock : r.progress.hasLock = true := by rw [hprogress]; rfl
  have hsettled := h.settled_of hr (Or.inl hlock) (by rw [hprogress]; rfl)
  exact h.set hr (Or.inl hlock) h.sound rfl nofun fun _ =>
    ⟨hsettled.starts, hsettled.payloads_eq⟩

theorem insert [DecidableEq ι] (h : Orderly config accepted t) (hr : t.requests[i]? = some r)
    (hprogress : r.progress = .aboutToInsert) (hunfenced : t.state.fenced = false)
    (hnone : t.state.journal.holds r.event = false) (count seq : Nat) :
    Orderly config accepted
      ⟨{ t.state with journal := ((t.state.journal.skip count).insert r.event r.payload).1 },
        t.requests.set i { r with progress := .aboutToRecord seq }⟩ := by
  have hlock : r.progress.hasLock = true := by rw [hprogress]; rfl
  have hsettled := h.settled_of hr (Or.inl hlock) (by rw [hprogress]; rfl)
  have hlocked : t.state.locked = true := h.locked_iff.2 ⟨r, List.mem_of_getElem? hr, hlock⟩
  exact h.set hr (Or.inl hlock) h.sound hlocked
    (fun _ => ⟨hunfenced, _, _, Journal.rows_insert _ _ _, hsettled.payloads_eq hunfenced,
      Journal.holds_eq_false_iff.1 hnone⟩) nofun

/-- Recording the event of a request that is at that: it is in the tree and the request is
answered, or it is not and its row has to go. -/
theorem recordAndSettle_cases {c : Cut} {s : State σ ι}
    (h : Log.Sound config c s.log (contents s.store)) (now : Nat) (event : ι) (payload : String)
    (seq : Nat) :
    (∃ log store a, s.recordAndSettle now event payload seq =
        ({ s with log, store, locked := false }, .answered a) ∧
      Log.Sound config (c.add config.maxLeavesPerTree payload) log (contents store)) ∨
    ∃ log store reply, s.recordAndSettle now event payload seq =
        ({ s with log, store }, .aboutToDelete reply) ∧
      Log.Sound config c log (contents store) := by
  obtain ⟨result, log, store, hrecord, hcases⟩ := h.record_sound payload now
  simp only [State.recordAndSettle, hrecord]
  rcases hcases with ⟨⟨receipt, rfl⟩ | ⟨receipt, e, rfl⟩, hsound⟩ | ⟨⟨e, rfl⟩, hsound⟩
  · exact Or.inl ⟨log, store, _, rfl, hsound⟩
  · exact Or.inl ⟨log, store, _, rfl, hsound⟩
  · exact Or.inr ⟨log, store, _, rfl, hsound⟩

theorem record (h : Orderly config accepted t) (hr : t.requests[i]? = some r) {seq : Nat}
    (hprogress : r.progress = .aboutToRecord seq) {now : Nat} {s : State σ ι} {p : Progress ι}
    (hrecord : t.state.recordAndSettle now r.event r.payload seq = (s, p)) :
    ∃ accepted', Orderly config accepted' ⟨s, t.requests.set i { r with progress := p }⟩ := by
  have hlock : r.progress.hasLock = true := by rw [hprogress]; rfl
  have hundecided := h.undecided r (List.mem_of_getElem? hr) (by rw [hprogress]; rfl)
  rcases recordAndSettle_cases h.sound now r.event r.payload seq with
    ⟨log, store, a, heq, hsound⟩ | ⟨log, store, reply, heq, hsound⟩
  · rw [heq] at hrecord
    cases hrecord
    rw [← ofEvents_concat] at hsound
    obtain ⟨front, seq', hrows, rfl, -⟩ := hundecided.rows
    have hpayloads : t.state.journal.payloads = front.map Row.payload ++ [r.payload] := by
      rw [Journal.payloads, hrows, List.map_append]
      rfl
    exact ⟨_, h.set hr (Or.inl hlock) hsound rfl nofun fun _ =>
      ⟨by rw [hpayloads], fun _ => hpayloads⟩⟩
  · rw [heq] at hrecord
    cases hrecord
    have hlocked : t.state.locked = true := h.locked_iff.2 ⟨r, List.mem_of_getElem? hr, hlock⟩
    exact ⟨accepted, h.set hr (Or.inl hlock) hsound hlocked
      (fun _ => ⟨hundecided.unfenced, hundecided.rows⟩) nofun⟩

theorem fence (h : Orderly config accepted t) (hr : t.requests[i]? = some r) {reply : Reply}
    (hprogress : r.progress = .aboutToDelete reply) (a : Answer ι) :
    Orderly config accepted ⟨{ t.state with fenced := true, locked := false },
      t.requests.set i { r with progress := .answered a }⟩ :=
  h.set hr (Or.inl (by rw [hprogress]; rfl)) h.sound rfl nofun fun _ =>
    ⟨h.prefix_payloads, nofun⟩

theorem delete [DecidableEq ι] (h : Orderly config accepted t) (hr : t.requests[i]? = some r)
    {reply : Reply} (hprogress : r.progress = .aboutToDelete reply) (a : Answer ι) :
    Orderly config accepted
      ⟨{ t.state with journal := t.state.journal.delete r.event, locked := false },
        t.requests.set i { r with progress := .answered a }⟩ := by
  have hundecided := h.undecided r (List.mem_of_getElem? hr) (by rw [hprogress]; rfl)
  obtain ⟨front, seq, hrows, hfront, hfresh⟩ := hundecided.rows
  have hpayloads : (t.state.journal.delete r.event).payloads = accepted := by
    rw [Journal.payloads, Journal.rows_delete hrows hfresh, hfront]
  exact h.set hr (Or.inl (by rw [hprogress]; rfl)) h.sound rfl nofun fun _ =>
    ⟨(show accepted <+: (t.state.journal.delete r.event).payloads by rw [hpayloads]),
      fun _ => hpayloads⟩

variable [DecidableEq ι]

/-- A request that is taken a step further, unless it inserts its row with the fence set. -/
theorem advance (h : Orderly config accepted t) (hr : t.requests[i]? = some r)
    (mishaps : Mishaps) (now : Nat) {s : State σ ι} {p : Progress ι}
    (hadvances : t.state.Advances (t.mishapsFor r.event mishaps) now r.event r.payload r.progress
      s p)
    (hheeds : t.state.fenced = true → s.journal.rows = t.state.journal.rows) :
    ∃ accepted', Orderly config accepted' ⟨s, t.requests.set i { r with progress := p }⟩ := by
  generalize hprogress : r.progress = before at hadvances
  cases hadvances with
  | turnedAway | passed => exact ⟨accepted, h.look hr (by rw [hprogress]; rfl) rfl⟩
  | locked hfree => exact ⟨accepted, h.lock hr hprogress hfree⟩
  | notInserted => exact ⟨accepted, h.giveUp hr hprogress _ _⟩
  | inserted htaken =>
      have hnone := (Bool.or_eq_false_iff.1 htaken).2
      have hunfenced : t.state.fenced = false := Bool.eq_false_iff.2 fun hfenced =>
        (t.state.journal.skip _).rows_insert_ne _ _ (hheeds hfenced)
      exact ⟨accepted, h.insert hr hprogress hunfenced hnone _ _⟩
  | recorded hsettled => exact h.record hr hprogress hsettled
  | notDeleted => exact ⟨accepted, h.fence hr hprogress _⟩
  | deleted => exact ⟨accepted, h.delete hr hprogress _⟩

end Steps

variable [DecidableEq ι]

/-- Whatever happens next, unless a row is inserted with the fence set. -/
theorem step (h : Orderly config accepted t) (m : Move ι)
    (hheeds : t.state.fenced = true →
      (t.step m).state.journal.rows = t.state.journal.rows) :
    ∃ accepted', Orderly config accepted' (t.step m) := by
  cases m with
  | arrive event payload => exact ⟨accepted, h.arrive event payload⟩
  | advance place mishaps now =>
      rcases t.step_advance_cases place mishaps now with heq | ⟨r, s, p, hr, hadvances, heq⟩
      · rw [heq]
        exact ⟨accepted, h⟩
      · rw [heq] at hheeds ⊢
        exact h.advance hr mishaps now hadvances hheeds

/-- Whatever happens, as long as no row is inserted with the fence set. -/
theorem run (h : Orderly config accepted t) (moves : List (Move ι))
    (hheeds : t.HeedsFence moves) : ∃ accepted', Orderly config accepted' (t.run moves) := by
  induction moves generalizing t accepted with
  | nil => exact ⟨accepted, h⟩
  | cons m moves ih =>
      obtain ⟨accepted', h'⟩ := h.step m hheeds.1
      exact ih h' hheeds.2

omit [DecidableEq ι] in
theorem of_restart {journal : Journal ι} {store store' : σ} {now : Nat} {s : State σ ι}
    (h : State.restart journal store config now = (.ok s, store')) :
    Orderly config journal.payloads (Traffic.ofState s) := by
  rw [State.restart] at h
  rcases Log.recover_cases store config now journal.payloads with
    ⟨log, store'', hrecover, hrecovered, -, hlegitimate⟩ | ⟨reason, store'', hrecover, -⟩ |
      ⟨index, detail, store'', hrecover, -⟩
  · rw [hrecover] at h
    cases h
    refine ⟨⟨hrecovered.valid, hrecovered.follows, hlegitimate⟩, ?_, nofun, nofun, fun _ => ?_⟩
    · simp [Traffic.ofState]
    · exact ⟨List.prefix_refl _, fun _ => rfl⟩
  · rw [hrecover] at h
    cases h
  · rw [hrecover] at h
    cases h

end Orderly

end SealedLog.Service
