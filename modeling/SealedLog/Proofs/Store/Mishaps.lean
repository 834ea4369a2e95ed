import SealedLog.Proofs.Store.Reopening

/-!
# Writes that are broken off

A write that goes wrong, at whichever of its steps, or that the program does not live to see the
end of, leaves the draft in some state and the file as it was. So a store in a file holds what
its file would be opened with at all times (`Mirrored`), whatever goes wrong on the way and even
while a folder stands where the draft should go, and after a write that was broken off the file
is opened with what it held before: `old_or_new`.

This is so as long as the draft is another file. A name with the ending `tmp` is its own draft:
there a write starts with throwing away the only copy, `open?_of_truncated`, and if slashes
follow, it leaves a file that the path cannot be opened with, `open?_of_slashed`.
-/

namespace SealedLog

namespace FileStore

open SealedLog.Path Directory

/-- Whether the name of the file that a path ends in is also that of its draft. -/
def isOwnDraft (path : Path) : Bool :=
  path.file?.any fun (name, _) => withEnding name "tmp" == name

section Draft

variable {d d' : Directory} {path : Path} {bytes : ByteArray}

/-- The draft is not what the path asks for, and not on the way to it unless on its own. -/
theorem draft_apart (hdraft : isOwnDraft path = false)
    (hfile : ∃ last before, path.file? = some (last, before)) :
    (draft path).name ≠ path.name ∧
      ((draft path).name ∈ path.way → (draft path).name ∈ (draft path).way) := by
  obtain ⟨last, before, hfile⟩ := hfile
  have hne : withEnding last "tmp" ≠ last := by
    simpa [isOwnDraft, hfile] using hdraft
  obtain ⟨hname, hcases⟩ := file?_cases hfile
  obtain ⟨hname', -, hway'⟩ := draft_eq hfile
  rw [hname', hname, hway']
  have hapart : withEnding last "tmp" :: resolve before ≠ last :: resolve before :=
    fun heq => hne (List.cons.inj heq).1
  refine ⟨hapart, ?_⟩
  rcases hcases with ⟨slashed, -, hway⟩ | ⟨-, hway⟩ <;> rw [hway]
  · exact id
  · exact fun hmem => (List.mem_cons.1 hmem).resolve_left hapart

theorem read_set_draft (hdraft : isOwnDraft path = false)
    (hfile : ∃ last before, path.file? = some (last, before))
    (hway : (draft path).name ∉ (draft path).way) (entry : DirectoryEntry) :
    (d.set (draft path).name entry).read path = d.read path :=
  read_set_of_ne (mt (draft_apart hdraft hfile).2 hway) (draft_apart hdraft hfile).1

theorem read_makeFolder (hdraft : isOwnDraft path = false) :
    (d.makeFolder (draft path)).1.read path = d.read path := by
  rw [makeFolder]
  split
  next hobstacle htarget hfree =>
    exact read_set_draft hdraft (of_target_draft htarget)
      (not_mem_way hobstacle (by simp [hfree])) .folder
  · rfl

/-- Where the path does not lead through the folder in the place of the draft, that may go. -/
theorem read_removeFolder (hdraft : isOwnDraft path = false)
    (hway : (draft path).name ∉ path.way) :
    (d.removeFolder (draft path)).1.read path = d.read path := by
  rw [removeFolder]
  split
  next htarget _ =>
    split
    · rfl
    · exact read_erase_of_ne hway (draft_apart hdraft (of_target_draft htarget)).1
  · rfl

/-- A write ends with all of the new bytes in the file, or it is broken off and the file is as it
was. -/
theorem save_cases {mishap? : Option Mishap} {fault? : Option IoFault}
    (hdraft : isOwnDraft path = false) (h : save d path bytes mishap? = (fault?, d')) :
    (fault? = none ∧ d'.read path = .ok bytes) ∨
      ∃ fault, fault? = some fault ∧ d'.read path = d.read path := by
  cases hmade : d.write (draft path) .empty with
  | error fault =>
      refine Or.inr ?_
      rcases mishap? with _ | _ | _ | _ | _
      all_goals
        simp only [save, hmade, Prod.mk.injEq] at h
        obtain ⟨rfl, rfl⟩ := h
        exact ⟨_, rfl, rfl⟩
  | ok made =>
      obtain ⟨hobstacle, htarget, hfolder, rfl⟩ := of_write_eq_ok hmade
      have hfile := of_target_draft htarget
      have hway := not_mem_way hobstacle hfolder
      have hfilled : ∀ made filled : ByteArray, ((d.set (draft path).name (.file made)).set
          (draft path).name (.file filled)).read path = d.read path := by
        intro made filled
        rw [read_set_draft hdraft hfile hway, read_set_draft hdraft hfile hway]
      rcases mishap? with _ | _ | _ | _ | _
      case none =>
        simp only [save, hmade] at h
        split at h
        · cases h
          exact Or.inr ⟨_, rfl, hfilled _ _⟩
        next hrename =>
          cases h
          obtain ⟨hpath, htarget', hname, rfl⟩ :=
            of_rename_eq_ok (read_filled hobstacle htarget hfolder _ _) hrename
          have hdrafted : ((d.set (draft path).name (.file .empty)).set (draft path).name
              (.file bytes)).get? (draft path).name ≠ some .folder := by
            rw [get?_set_self]
            simp
          exact Or.inl ⟨rfl,
            read_eq (obstacle?_renamed hpath hdrafted hname) htarget' get?_set_self⟩
      case some.making =>
        cases h
        exact Or.inr ⟨_, rfl, rfl⟩
      all_goals
        simp only [save, hmade, Prod.mk.injEq] at h
        obtain ⟨rfl, rfl⟩ := h
        exact Or.inr ⟨_, rfl, hfilled _ _⟩

end Draft

/-- What is in a file is all that it is opened with. -/
theorem open?_of_read_eq {d d' : Directory} {path : Path} {shelf : Shelf}
    (hread : d'.read path = d.read path) (h : open? d path = .ok ⟨d, path, shelf⟩) :
    open? d' path = .ok ⟨d', path, shelf⟩ := by
  rw [open?] at h ⊢
  rw [hread]
  cases hfile : d.read path with
  | error fault =>
      rw [hfile] at h
      cases fault with
      | notFound =>
          cases h
          rfl
      | busy => cases h
      | notADirectory => cases h
      | isADirectory => cases h
  | ok bytes =>
      simp only [hfile] at h ⊢
      split at h
      next hempty =>
        cases h
        rw [if_pos hempty]
      next hempty =>
        rw [if_neg hempty]
        split at h
        · cases h
        · cases h
          rfl

/-- The store holds what its file would be opened with. -/
structure Mirrored (store : FileStore) : Prop where
  ordered : Ordered store.shelf.snapshots
  keyed : Keyed store.shelf.snapshots
  word64 : ∀ s ∈ store.shelf.snapshots, s.Word64
  open?_eq : open? store.directory store.path = .ok store

/-- So does every store that was opened, whatever text was in the file. -/
theorem mirrored_of_open? {d : Directory} {path : Path} {store : FileStore}
    (h : open? d path = .ok store) : store.Mirrored ∧ store.directory = d ∧ store.path = path := by
  have hopen := h
  rw [open?] at h
  split at h
  · cases h
    exact ⟨⟨List.Pairwise.nil, List.nodup_nil, fun _ hs => absurd hs List.not_mem_nil, hopen⟩,
      rfl, rfl⟩
  · cases h
  next bytes hread =>
    split at h
    · cases h
      exact ⟨⟨List.Pairwise.nil, List.nodup_nil, fun _ hs => absurd hs List.not_mem_nil, hopen⟩,
        rfl, rfl⟩
    · split at h
      · cases h
      next snapshots hdocument =>
        cases h
        have hword := Snapshot.word64_of_readDocument hdocument
        exact ⟨⟨ordered_ofList snapshots, keyed_ofList snapshots,
          fun s hs => hword s (mem_of_mem_ofList hs), hopen⟩, rfl, rfl⟩

/-- A change in the directory that is none of the file leaves the store in step with it. -/
theorem Mirrored.of_read_eq {store : FileStore} (h : store.Mirrored) {d : Directory}
    (hread : d.read store.path = store.directory.read store.path) :
    Mirrored { store with directory := d } where
  ordered := h.ordered
  keyed := h.keyed
  word64 := h.word64
  open?_eq := open?_of_read_eq hread h.open?_eq

/-- A call goes through, and its file is opened with the new snapshots, or it fails and the store
is what it was, as is what its file is opened with. -/
theorem Mirrored.replaceWith {store : FileStore} (h : store.Mirrored)
    (hdraft : isOwnDraft store.path = false) (old? : Option Hash) {s : Snapshot}
    (hs : s.Word64) (mishap? : Option Mishap) :
    ∃ result store', store.replaceWith old? s mishap? = (result, store') ∧
      store'.path = store.path ∧ store'.Mirrored ∧
      ((result = .ok () ∧ store'.shelf = store.shelf.replace old? s) ∨
        ((∃ fault, result = .error (.io fault)) ∧ store'.shelf = store.shelf)) := by
  cases hsave : save store.directory store.path
      (Snapshot.document (store.shelf.replace old? s).snapshots).toUTF8 mishap? with
  | mk fault? d =>
      simp only [FileStore.replaceWith, hsave]
      rcases save_cases hdraft hsave with ⟨rfl, hfile⟩ | ⟨fault, rfl, hread⟩
      · have hordered := h.ordered.replace old? s
        have hkeyed := h.keyed.replace old? s
        have hword : ∀ t ∈ (store.shelf.replace old? s).snapshots, t.Word64 := by
          intro t ht
          rcases mem_replace_iff.1 ht with rfl | ⟨ht, -⟩
          · exact hs
          · exact h.word64 t ht
        have hread := open?_document hfile (.refl _) hordered hkeyed hword
        exact ⟨_, _, rfl, rfl, ⟨hordered, hkeyed, hword, hread⟩, Or.inl ⟨rfl, rfl⟩⟩
      · exact ⟨_, _, rfl, rfl, h.of_read_eq hread, Or.inr ⟨⟨fault, rfl⟩, rfl⟩⟩

/-- What may happen to a store in a file. -/
inductive Incident where
  /-- A call, with a mishap on the way if one is given. -/
  | replace (old? : Option Hash) (s : Snapshot) (mishap? : Option Mishap)
  /-- The program stops and is started again. -/
  | reopen
  /-- A folder is made where the draft would go. -/
  | block
  /-- A folder there is removed. -/
  | unblock

namespace Incident

/-- The numbers of what is written have 64 bits, and no folder is removed that the path leads
through. -/
def Spares (path : Path) : Incident → Prop
  | replace _ s _ => s.Word64
  | unblock => (draft path).name ∉ path.way
  | reopen | block => True

/-- Without two dots a path leads nowhere twice. -/
theorem spares_unblock {path : Path} (hdraft : isOwnDraft path = false)
    (hdots : ".." ∉ path.parts) (hfile : ∃ last before, path.file? = some (last, before)) :
    unblock.Spares path := by
  intro hmem
  have hmem' := (draft_apart hdraft hfile).2 hmem
  obtain ⟨last, before, hfile⟩ := hfile
  obtain ⟨hname, -, hway⟩ := draft_eq hfile
  have hbefore : ".." ∉ before := fun h => hdots
    ((List.dropWhile_suffix _).subset ((file?_eq_some_iff.1 hfile).1 ▸ List.mem_cons_of_mem _ h))
  rw [hway, hname] at hmem'
  have hlength := length_le_of_mem_folders hbefore hmem'
  rw [List.length_cons] at hlength
  omega

end Incident

/-- What becomes of the store, which is there unless its file cannot be opened again. -/
def meet (store : FileStore) : Incident → Except StoreError FileStore
  | .replace old? s mishap? => .ok (store.replaceWith old? s mishap?).2
  | .reopen => open? store.directory store.path
  | .block =>
    .ok { store with directory := (store.directory.makeFolder (draft store.path)).1 }
  | .unblock =>
    .ok { store with directory := (store.directory.removeFolder (draft store.path)).1 }

theorem Mirrored.meet {store : FileStore} (h : store.Mirrored)
    (hdraft : isOwnDraft store.path = false) {incident : Incident}
    (hspares : incident.Spares store.path) :
    ∃ store', store.meet incident = .ok store' ∧ store'.path = store.path ∧ store'.Mirrored := by
  cases incident with
  | replace old? s mishap? =>
      obtain ⟨result, store', hcall, hpath, hmirrored, -⟩ :=
        h.replaceWith hdraft old? hspares mishap?
      exact ⟨store', by rw [FileStore.meet, hcall], hpath, hmirrored⟩
  | reopen => exact ⟨store, h.open?_eq, rfl, h⟩
  | block => exact ⟨_, rfl, rfl, h.of_read_eq (read_makeFolder hdraft)⟩
  | unblock => exact ⟨_, rfl, rfl, h.of_read_eq (read_removeFolder hdraft hspares)⟩

theorem Mirrored.foldlM_meet {store : FileStore} (h : store.Mirrored)
    (hdraft : isOwnDraft store.path = false) {incidents : List Incident}
    (hspares : ∀ incident ∈ incidents, incident.Spares store.path) :
    ∃ store', incidents.foldlM FileStore.meet store = .ok store' ∧ store'.path = store.path ∧
      store'.Mirrored := by
  induction incidents generalizing store with
  | nil => exact ⟨store, rfl, rfl, h⟩
  | cons incident incidents ih =>
      obtain ⟨store₁, hmeet, hpath, hmirrored⟩ :=
        h.meet hdraft (hspares incident List.mem_cons_self)
      rw [← hpath] at hdraft hspares
      obtain ⟨store', hrest, hpath', hmirrored'⟩ := ih hmirrored hdraft
        fun other hother => hspares other (List.mem_cons_of_mem incident hother)
      refine ⟨store', ?_, by rw [hpath', hpath], hmirrored'⟩
      rw [List.foldlM_cons, hmeet]
      exact hrest

/-- A store in a file that could be opened, whatever is in the file and in the directory, after
any calls, with mishaps at any of their steps, with any restarts, and with a folder in the place
of the draft from time to time. Its file can be opened, and gives the store as it stands. It can
be opened after one call more, too, however that goes: the call goes through, and the file gives
the new snapshots, or the call fails, and the file gives the old ones, which the store still
holds. The condition is that the name of the file is not that of its draft; and a folder that is
removed may not be one that the path itself leads through, as in `x.tmp/../x`. -/
theorem old_or_new {d : Directory} {path : Path} {opened : FileStore}
    (hopen : open? d path = .ok opened) (hdraft : isOwnDraft path = false)
    {incidents : List Incident} (hspares : ∀ incident ∈ incidents, incident.Spares path) :
    ∃ store, incidents.foldlM FileStore.meet opened = .ok store ∧
      open? store.directory path = .ok store ∧
      ∀ (old? : Option Hash) (s : Snapshot) (mishap? : Option Mishap), s.Word64 →
        ∃ result store' reopened, store.replaceWith old? s mishap? = (result, store') ∧
          open? store'.directory path = .ok reopened ∧
          ((result = .ok () ∧ store'.shelf = store.shelf.replace old? s ∧
              reopened.shelf = store.shelf.replace old? s) ∨
            ((∃ fault, result = .error (.io fault)) ∧ store'.shelf = store.shelf ∧
              reopened.shelf = store.shelf)) := by
  obtain ⟨hmirrored, -, rfl⟩ := mirrored_of_open? hopen
  obtain ⟨store, hrun, hpath, hstore⟩ := hmirrored.foldlM_meet hdraft hspares
  rw [← hpath] at hdraft ⊢
  refine ⟨store, hrun, hstore.open?_eq, fun old? s mishap? hs => ?_⟩
  obtain ⟨result, store', hcall, hpath', hstore', hend⟩ :=
    hstore.replaceWith hdraft old? hs mishap?
  have hreopen := hstore'.open?_eq
  rw [hpath'] at hreopen
  refine ⟨result, store', store', hcall, hreopen, ?_⟩
  rcases hend with ⟨hok, hshelf⟩ | ⟨hfault, hshelf⟩
  · exact Or.inl ⟨hok, hshelf, hshelf⟩
  · exact Or.inr ⟨hfault, hshelf, hshelf⟩

/-- A call that goes through, one with a folder in the way, and one that is broken off when two
bytes are in the draft. -/
def rough : List Incident :=
  [.replace none ⟨"a", 0, [["x"]], [["a"]], 7⟩ none, .block,
    .replace none ⟨"b", 1, [], [], 0⟩ none, .unblock,
    .replace (some "a") ⟨"c", 0, [], [], 0⟩ (some (.filling 2 .notFound)), .reopen]

theorem old_or_new_rough :
    open? .empty (.ofString "snapshots.json") =
      .ok ⟨.empty, .ofString "snapshots.json", .empty⟩ ∧
    isOwnDraft (.ofString "snapshots.json") = false ∧
    (∀ incident ∈ rough, incident.Spares (.ofString "snapshots.json")) ∧
    ∃ store, rough.foldlM FileStore.meet ⟨.empty, .ofString "snapshots.json", .empty⟩ =
        .ok store ∧
      open? store.directory (.ofString "snapshots.json") = .ok store := by
  have hopen : open? .empty (.ofString "snapshots.json") =
      .ok ⟨.empty, .ofString "snapshots.json", .empty⟩ := rfl
  have hdraft : isOwnDraft (.ofString "snapshots.json") = false := by decide
  have hspares : ∀ incident ∈ rough, incident.Spares (.ofString "snapshots.json") := by
    intro incident hincident
    simp only [rough, List.mem_cons, List.not_mem_nil, or_false] at hincident
    rcases hincident with rfl | rfl | rfl | rfl | rfl | rfl
    · exact ⟨by decide, by decide⟩
    · trivial
    · exact ⟨by decide, by decide⟩
    · exact Incident.spares_unblock hdraft (by decide) ⟨"snapshots.json", [], rfl⟩
    · exact ⟨by decide, by decide⟩
    · trivial
  obtain ⟨store, hrun, hstore, -⟩ := old_or_new hopen hdraft hspares
  exact ⟨hopen, hdraft, hspares, store, hrun, hstore⟩

/-- Where a file is its own draft, a call that is broken off before the first byte leaves nothing
of what was in the file. -/
theorem open?_of_truncated {store : FileStore} (h : store.Durable)
    (hname : (draft store.path).name = store.path.name) (old? : Option Hash) (s : Snapshot)
    (fault : IoFault) :
    ∃ store', store.replaceWith old? s (some (.filling 0 fault)) = (.error (.io fault), store') ∧
      store'.shelf = store.shelf ∧
      open? store'.directory store.path = .ok ⟨store'.directory, store.path, .empty⟩ := by
  have hempty : ∀ bytes : ByteArray, (bytes.extract 0 0).isEmpty = true := by
    intro bytes
    simp [ByteArray.isEmpty]
  obtain ⟨htarget, hway⟩ := draft_of_target h.hosts.target_eq
  have hwrite : store.directory.write (draft store.path) .empty =
      .ok (store.directory.set (draft store.path).name (.file .empty)) :=
    write_eq ((obstacle?_congr hway).trans h.hosts.obstacle?_eq) htarget h.hosts.draft_ne
  have hsave : ∀ bytes, ∃ d, save store.directory store.path bytes (some (.filling 0 fault)) =
      (some fault, d) ∧ d.read store.path = .ok (bytes.extract 0 0) := by
    intro bytes
    refine ⟨(store.directory.set (draft store.path).name (.file .empty)).set
      (draft store.path).name (.file (bytes.extract 0 0)), ?_, ?_⟩
    · simp only [save, hwrite]
    · rw [hname]
      exact read_eq (obstacle?_set (obstacle?_set h.hosts.obstacle?_eq h.hosts.name_ne)
        (by simp)) h.hosts.target_eq get?_set_self
  obtain ⟨d, hsave, hread⟩ :=
    hsave (Snapshot.document (store.shelf.replace old? s).snapshots).toUTF8
  refine ⟨{ store with directory := d }, ?_, rfl, ?_⟩
  · simp only [FileStore.replaceWith, hsave]
  · simp only [open?, hread, hempty, if_true]

/-- A file that is its own draft, with one snapshot in it. A call that is broken off loses that
one, though the store still holds it. And with a folder in the place of the draft the file cannot
be opened again. -/
theorem lost_of_tmp :
    draft (.ofString "x.tmp") = .ofString "x.tmp" ∧
    open? .empty (.ofString "x.tmp") = .ok ⟨.empty, .ofString "x.tmp", .empty⟩ ∧
    (∃ store store' reopened,
      FileStore.replaceWith ⟨.empty, .ofString "x.tmp", .empty⟩ none
        ⟨"a", 0, [["x"]], [["a"]], 0⟩ none = (.ok (), store) ∧
      store.replaceWith none ⟨"b", 1, [], [], 0⟩ (some (.filling 0 .notFound)) =
        (.error (.io .notFound), store') ∧
      store'.shelf.snapshots = [⟨"a", 0, [["x"]], [["a"]], 0⟩] ∧
      open? store'.directory (.ofString "x.tmp") = .ok reopened ∧
      reopened.shelf.snapshots = []) ∧
    ∃ store store',
      FileStore.meet ⟨.empty, .ofString "x.tmp", .empty⟩ .block = .ok store ∧
      store.replaceWith none ⟨"a", 0, [["x"]], [["a"]], 0⟩ none =
        (.error (.io .isADirectory), store') ∧
      open? store'.directory (.ofString "x.tmp") = .error (.io .isADirectory) := by
  have hdraft : draft (.ofString "x.tmp") = .ofString "x.tmp" := by decide
  have hfresh : Fresh .empty (.ofString "x.tmp") := ⟨Or.inl rfl, rfl⟩
  obtain ⟨hopen, hdurable⟩ := hfresh.durable
  obtain ⟨store, hcall, hshelf, hpath, hdurable', -⟩ :=
    hdurable.replace none (s := ⟨"a", 0, [["x"]], [["a"]], 0⟩) ⟨by decide, by decide⟩
  obtain ⟨store', hbroken, hkept, hlost⟩ :=
    open?_of_truncated hdurable' (by rw [hpath, hdraft]) none ⟨"b", 1, [], [], 0⟩ .notFound
  refine ⟨hdraft, hopen, ⟨store, store', ⟨store'.directory, .ofString "x.tmp", .empty⟩, hcall,
    hbroken, ?_, ?_, rfl⟩, _, _, rfl, rfl, rfl⟩
  · rw [hkept, hshelf]
    rfl
  · rwa [hpath] at hlost

/-- Where slashes follow the name of a file that is its own draft, a write makes the file and
cannot give it the path. -/
theorem open?_of_slashed {d : Directory} {path : Path} (htarget : path.target = .entry true)
    (hname : (draft path).name = path.name)
    (hmakeable : (d.write (draft path) .empty).isOk = true) (bytes : ByteArray) :
    ∃ d', save d path bytes none = (some .notADirectory, d') ∧
      open? d' path = .error (.io .notADirectory) := by
  cases hwrite : d.write (draft path) .empty with
  | error fault =>
      rw [hwrite] at hmakeable
      cases hmakeable
  | ok made =>
      obtain ⟨hobstacle, hdraft, hfolder, rfl⟩ := of_write_eq_ok hwrite
      have hread := read_filled hobstacle hdraft hfolder .empty bytes
      have hfollowed : d.obstacle? path = none :=
        (obstacle?_congr (draft_of_target htarget).2).symm.trans hobstacle
      generalize hfilled : (d.set (draft path).name (.file .empty)).set (draft path).name
        (.file bytes) = filled at hread
      have hget : filled.get? path.name = some (.file bytes) := by
        rw [← hfilled, ← hname, get?_set_self]
      have hopen : filled.obstacle? path = none := by
        rw [← hfilled]
        exact obstacle?_set (obstacle?_set hfollowed hfolder) (by simp)
      refine ⟨filled, ?_, ?_⟩
      · simp only [save, hwrite, hfilled, rename, hread, hopen, htarget]
      · simp only [open?, Directory.read, find, hopen, htarget, hget, if_true]

example : open? .empty (.ofString "x.tmp/") = .ok ⟨.empty, .ofString "x.tmp/", .empty⟩ ∧
    Path.target (.ofString "x.tmp/") = .entry true ∧
    (draft (.ofString "x.tmp/")).name = Path.name (.ofString "x.tmp/") := ⟨rfl, rfl, rfl⟩

end FileStore

end SealedLog
