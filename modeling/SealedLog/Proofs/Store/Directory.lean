import SealedLog.Store.File

/-!
# Writing a file by way of a draft

What a path stands for after the operations on a directory, and from this what becomes of a
write: where nothing is in the way of the draft, `Hosts`, the file has the new bytes and there
is still nothing in the way.

The draft and the file are in the same folder. A path that ends in slashes or dots has its draft
there too, but cannot be given to it; `file?_cases` compares what the file system makes of such
a path with the file that it ends in.
-/

namespace SealedLog

namespace Path

open List (dropWhile)

variable {path : Path} {part last : String} {parts before : List String} {slashed : Bool}

theorem isName_iff : isName part = true ↔ part ≠ "" ∧ part ≠ "." ∧ part ≠ ".." := by
  simp [isName, and_assoc]

theorem isIdle_iff : isIdle part = true ↔ part = "" ∨ part = "." := by
  simp [isIdle]

theorem not_isName_of_isIdle (h : isIdle part = true) : isName part = false := by
  rcases isIdle_iff.1 h with rfl | rfl <;> decide

/-- Passing over single dots as well leads further only behind one. -/
theorem dropWhile_isIdle_cases (parts : List String) :
    parts.dropWhile (· == "") = parts.dropWhile isIdle ∨
      ∃ rest, parts.dropWhile (· == "") = "." :: rest ∧
        rest.dropWhile isIdle = parts.dropWhile isIdle := by
  induction parts with
  | nil => exact Or.inl rfl
  | cons part parts ih =>
      by_cases hblank : part = ""
      · subst hblank
        exact ih
      · have hstays : (part :: parts).dropWhile (· == "") = part :: parts := by
          simp [hblank]
        by_cases hdot : part = "."
        · subst hdot
          exact Or.inr ⟨parts, hstays, rfl⟩
        · left
          rw [hstays, List.dropWhile_cons_of_neg]
          simp [isIdle, hblank, hdot]

theorem resolve_cons_of_isIdle (hidle : isIdle part = true) (hne : parts ≠ []) :
    resolve (part :: parts) = resolve parts := by
  have hdots : part ≠ ".." := by
    rintro rfl
    exact absurd hidle (by decide)
  rw [resolve, if_neg (by simp [not_isName_of_isIdle hidle]), if_neg hdots,
    if_neg fun hroot => hne hroot.2]

theorem folders_cons_of_isIdle (hidle : isIdle part = true) :
    folders (part :: parts) = folders parts := by
  rw [folders, if_neg (by simp [not_isName_of_isIdle hidle])]

/-- What is passed over to get to the file of a path leads nowhere. -/
theorem resolve_eq_of_dropWhile (h : parts.dropWhile isIdle = last :: before) :
    resolve parts = resolve (last :: before) ∧ folders parts = folders (last :: before) := by
  induction parts with
  | nil => cases h
  | cons part parts ih =>
      cases hidle : isIdle part with
      | true =>
          rw [List.dropWhile_cons_of_pos hidle] at h
          have hne : parts ≠ [] := by
            rintro rfl
            cases h
          rw [resolve_cons_of_isIdle hidle hne, folders_cons_of_isIdle hidle]
          exact ih h
      | false =>
          rw [List.dropWhile_cons_of_neg (by simp [hidle])] at h
          rw [h]
          exact ⟨rfl, rfl⟩

theorem resolve_cons_of_isName (h : isName part = true) :
    resolve (part :: before) = part :: resolve before ∧
      folders (part :: before) = (part :: resolve before) :: folders before := by
  rw [resolve, folders, if_pos h, if_pos h]
  exact ⟨rfl, rfl⟩

/-- Without two dots every part leads further. -/
theorem length_le_of_mem_folders {name : List String} (hdots : ".." ∉ parts)
    (h : name ∈ folders parts) : name.length ≤ (resolve parts).length := by
  induction parts with
  | nil => cases h
  | cons part before ih =>
      rw [List.mem_cons, not_or] at hdots
      rw [folders] at h
      rw [resolve]
      split at h
      next hname =>
        rw [if_pos hname]
        rcases List.mem_cons.1 h with rfl | h
        · exact Nat.le_refl _
        · exact Nat.le_succ_of_le (ih hdots.2 h)
      next hname =>
        rw [if_neg hname, if_neg (Ne.symm hdots.1), if_neg]
        · exact ih hdots.2 h
        · rintro ⟨-, rfl⟩
          cases h

theorem eq_false_of_dropWhile {p : String → Bool} (h : parts.dropWhile p = last :: before) :
    p last = false := by
  have hhead := List.head_dropWhile_not p (by rw [h]; exact List.cons_ne_nil _ _)
  simpa only [h, List.head_cons] using hhead

theorem file?_eq_some_iff : path.file? = some (last, before) ↔
    path.parts.dropWhile isIdle = last :: before ∧ isName last = true := by
  rw [file?]
  constructor
  · intro h
    split at h
    · cases h
    next last' before' hparts =>
      split at h
      · cases h
      next hdots =>
        cases h
        have hidle := eq_false_of_dropWhile hparts
        rw [← Bool.not_eq_true, isIdle_iff, not_or] at hidle
        exact ⟨hparts, isName_iff.2 ⟨hidle.1, hidle.2, hdots⟩⟩
  · rintro ⟨hparts, hname⟩
    simp only [hparts]
    exact if_neg (isName_iff.1 hname).2.2

/-- The file system looks for the file that a path ends in, or for a folder of its name. -/
theorem file?_cases (h : path.file? = some (last, before)) :
    path.name = last :: resolve before ∧
      ((∃ slashed, path.target = .entry slashed ∧ path.way = folders before) ∨
        path.target = .place ∧ path.way = (last :: resolve before) :: folders before) := by
  obtain ⟨hparts, hname⟩ := file?_eq_some_iff.1 h
  refine ⟨(resolve_eq_of_dropWhile hparts).1.trans (resolve_cons_of_isName hname).1, ?_⟩
  rcases dropWhile_isIdle_cases path.parts with hsame | ⟨rest, hdot, hrest⟩
  · rw [hparts] at hsame
    refine Or.inl ⟨path.parts.head? == some "", ?_, ?_⟩
    · simp only [target, hsame, if_pos hname]
    · rw [way, hsame, List.drop_one, List.tail_cons]
  · rw [hparts] at hrest
    refine Or.inr ⟨?_, ?_⟩
    · simp only [target, hdot]
      exact if_neg (by decide)
    · rw [way, hdot, List.drop_one, List.tail_cons, (resolve_eq_of_dropWhile hrest).2,
        (resolve_cons_of_isName hname).2]

/-- Where a path does not end in a file, nothing is looked for by name. -/
theorem target_ne_entry_of_file?_eq_none (h : path.file? = none) :
    path.target ≠ .entry slashed := by
  intro htarget
  rw [target] at htarget
  split at htarget
  · split at htarget <;> cases htarget
  next last before hparts =>
    split at htarget
    next hname =>
      rcases dropWhile_isIdle_cases path.parts with hsame | ⟨rest, hdot, -⟩
      · rw [hparts] at hsame
        rw [file?_eq_some_iff.2 ⟨hsame.symm, hname⟩] at h
        cases h
      · rw [hparts, List.cons.injEq] at hdot
        rw [hdot.1] at hname
        exact absurd hname (by decide)
    · cases htarget

theorem target_mk_cons (h : isName last = true) :
    (Path.mk (last :: before)).name = last :: resolve before ∧
      (Path.mk (last :: before)).target = .entry false ∧
      (Path.mk (last :: before)).way = folders before := by
  have hne : (last == "") = false := by simpa using (isName_iff.1 h).1
  refine ⟨(resolve_cons_of_isName h).1, ?_⟩
  simp [target, way, hne, h]

end Path

namespace Directory

open SealedLog.Path

variable {d d' : Directory} {path old : Path} {name other : List String}
  {entry : DirectoryEntry} {bytes : ByteArray}

@[simp] theorem get?_erase_self : (d.erase name).get? name = none := by
  rw [get?, List.lookup_eq_none_iff]
  intro p hp
  have hne := bne_iff_ne.1 (List.mem_filter.1 hp).2
  exact bne_iff_ne.2 hne.symm

theorem get?_erase_of_ne (h : other ≠ name) : (d.erase name).get? other = d.get? other := by
  rw [get?, get?, erase]
  induction d.entries with
  | nil => rfl
  | cons p rest ih =>
      obtain ⟨key, entry⟩ := p
      by_cases hkey : key = name
      · have hskip : (other == key) = false := by simpa [hkey] using h
        rw [List.filter_cons_of_neg (by simp [hkey]), List.lookup_cons, hskip, ih]
      · rw [List.filter_cons_of_pos (by simpa using hkey), List.lookup_cons, List.lookup_cons, ih]

@[simp] theorem get?_set_self : (d.set name entry).get? name = some entry := by
  simp [get?, set]

theorem get?_set_of_ne (h : other ≠ name) : (d.set name entry).get? other = d.get? other := by
  have hskip : (other == name) = false := by simpa using h
  rw [get?, set, List.lookup_cons, hskip]
  exact get?_erase_of_ne h

theorem barrier?_eq_none_iff {way : List (List String)} :
    d.barrier? way = none ↔ ∀ name ∈ way, d.get? name = some .folder := by
  induction way with
  | nil => simp [barrier?]
  | cons name before ih =>
      rw [barrier?, List.forall_mem_cons, ← ih]
      cases d.barrier? before with
      | some fault => simp
      | none =>
          cases d.get? name with
          | none => simp
          | some entry => cases entry <;> simp

theorem barrier?_congr {way : List (List String)}
    (h : ∀ name ∈ way, d'.get? name = d.get? name) : d'.barrier? way = d.barrier? way := by
  induction way with
  | nil => rfl
  | cons name before ih =>
      rw [List.forall_mem_cons] at h
      rw [barrier?, barrier?, ih h.2, h.1]

/-- A path that can be followed leads through nothing but folders. -/
theorem not_mem_way (h : d.obstacle? path = none) (hname : d.get? name ≠ some .folder) :
    name ∉ path.way :=
  fun hmem => hname (barrier?_eq_none_iff.1 h name hmem)

theorem obstacle?_congr (hway : old.way = path.way) : d.obstacle? old = d.obstacle? path := by
  rw [obstacle?, obstacle?, hway]

/-- A path can still be followed when something else than a folder gives way to an entry. -/
theorem obstacle?_set (h : d.obstacle? path = none) (hname : d.get? name ≠ some .folder) :
    (d.set name entry).obstacle? path = none := by
  rw [← h]
  refine barrier?_congr fun other hother => get?_set_of_ne ?_
  rintro rfl
  exact not_mem_way h hname hother

theorem obstacle?_erase (h : d.obstacle? path = none) (hname : d.get? name ≠ some .folder) :
    (d.erase name).obstacle? path = none := by
  rw [← h]
  refine barrier?_congr fun other hother => get?_erase_of_ne ?_
  rintro rfl
  exact not_mem_way h hname hother

theorem write_eq (hobstacle : d.obstacle? path = none) (htarget : path.target = .entry false)
    (hfolder : d.get? path.name ≠ some .folder) :
    d.write path bytes = .ok (d.set path.name (.file bytes)) := by
  simp only [write, hobstacle, htarget]

theorem of_write_eq_ok (h : d.write path bytes = .ok d') :
    d.obstacle? path = none ∧ path.target = .entry false ∧ d.get? path.name ≠ some .folder ∧
      d' = d.set path.name (.file bytes) := by
  rw [write] at h
  split at h
  · cases h
  · cases h
  · cases h
  next hobstacle htarget =>
    split at h
    · cases h
    · cases h
    next hfolder =>
      cases h
      exact ⟨hobstacle, htarget, hfolder, rfl⟩

theorem rename_eq (hold : d.read old = .ok bytes) (hobstacle : d.obstacle? path = none)
    (htarget : path.target = .entry false) (hfolder : d.get? path.name ≠ some .folder) :
    d.rename old path = .ok ((d.erase old.name).set path.name (.file bytes)) := by
  simp only [rename, hold, hobstacle, htarget]

theorem of_rename_eq_ok (hold : d.read old = .ok bytes) (h : d.rename old path = .ok d') :
    d.obstacle? path = none ∧ path.target = .entry false ∧ d.get? path.name ≠ some .folder ∧
      d' = (d.erase old.name).set path.name (.file bytes) := by
  rw [rename, hold] at h
  split at h
  · cases h
  · cases h
  · cases h
  · cases h
  next hread hobstacle htarget =>
    cases hread
    split at h
    · cases h
    · cases h
    next hfolder =>
      cases h
      exact ⟨hobstacle, htarget, hfolder, rfl⟩

theorem read_eq (hobstacle : d.obstacle? path = none) (htarget : path.target = .entry false)
    (h : d.get? path.name = some (.file bytes)) : d.read path = .ok bytes := by
  simp only [read, find, hobstacle, htarget, h]
  rfl

/-- What was renamed is found under the new path. -/
theorem obstacle?_renamed (hobstacle : d.obstacle? path = none) (hold : d.get? name ≠ some .folder)
    (hnew : d.get? path.name ≠ some .folder) :
    ((d.erase name).set path.name entry).obstacle? path = none := by
  refine obstacle?_set (obstacle?_erase hobstacle hold) ?_
  by_cases heq : path.name = name
  · rw [heq, get?_erase_self]
    simp
  · rwa [get?_erase_of_ne heq]

/-- What is read under a path depends on what it asks for and on the way to it. -/
theorem read_congr (hway : ∀ name ∈ path.way, d'.get? name = d.get? name)
    (hentry : ∀ slashed, path.target = .entry slashed → d'.get? path.name = d.get? path.name) :
    d'.read path = d.read path := by
  have hobstacle : d'.obstacle? path = d.obstacle? path := barrier?_congr hway
  rw [read, read, find, find, hobstacle]
  cases htarget : path.target with
  | nothing => cases d.obstacle? path <;> rfl
  | place => cases d.obstacle? path <;> rfl
  | entry slashed => simp only [hentry slashed htarget]

theorem read_set_of_ne (hway : other ∉ path.way) (hentry : other ≠ path.name) :
    (d.set other entry).read path = d.read path := by
  refine read_congr (fun name hname => get?_set_of_ne ?_) fun _ _ => get?_set_of_ne hentry.symm
  rintro rfl
  exact hway hname

theorem read_erase_of_ne (hway : other ∉ path.way) (hentry : other ≠ path.name) :
    (d.erase other).read path = d.read path := by
  refine read_congr (fun name hname => get?_erase_of_ne ?_) fun _ _ =>
    get?_erase_of_ne hentry.symm
  rintro rfl
  exact hway hname

end Directory

namespace FileStore

open SealedLog.Path Directory

variable {path : Path} {last : String} {before : List String}

theorem isName_withEnding (name : String) : isName (withEnding name "tmp") = true := by
  have hlength : 4 ≤ (withEnding name "tmp").length := by
    rw [withEnding, String.length_append, String.length_append]
    have hdot : ".".length = 1 := rfl
    have hending : "tmp".length = 3 := rfl
    omega
  rw [isName_iff]
  refine ⟨?_, ?_, ?_⟩ <;>
  · intro heq
    rw [heq] at hlength
    exact absurd hlength (by decide)

/-- The draft of a file is in the folder of the file. -/
theorem draft_eq (h : path.file? = some (last, before)) :
    (draft path).name = withEnding last "tmp" :: resolve before ∧
      (draft path).target = .entry false ∧ (draft path).way = folders before := by
  have hdraft : draft path = ⟨withEnding last "tmp" :: before⟩ := by
    simp only [draft, withExtension, h]
  rw [hdraft]
  exact target_mk_cons (isName_withEnding last)

/-- Only where the path ends in a file can something be made of the name of the draft. -/
theorem of_target_draft {slashed : Bool} (h : (draft path).target = .entry slashed) :
    ∃ last before, path.file? = some (last, before) := by
  cases hfile : path.file? with
  | none =>
      have hdraft : draft path = path := by simp only [draft, withExtension, hfile]
      rw [hdraft] at h
      exact absurd h (target_ne_entry_of_file?_eq_none hfile)
  | some file => exact ⟨file.1, file.2, rfl⟩

/-- The draft is looked for where the file is. -/
theorem draft_of_target {slashed : Bool} (h : path.target = .entry slashed) :
    (draft path).target = .entry false ∧ (draft path).way = path.way := by
  cases hfile : path.file? with
  | none => exact absurd h (target_ne_entry_of_file?_eq_none hfile)
  | some file =>
      obtain ⟨last, before⟩ := file
      obtain ⟨-, htarget, hway⟩ := draft_eq hfile
      rcases (file?_cases hfile).2 with ⟨slashed', -, hsame⟩ | ⟨hplace, -⟩
      · exact ⟨htarget, hway.trans hsame.symm⟩
      · rw [h] at hplace
        cases hplace

end FileStore

namespace Directory

open FileStore

/-- The path ends in a name, and nothing is in the way of a write to it, neither of its draft nor
of giving that the name of the file. -/
structure Hosts (d : Directory) (path : Path) : Prop where
  target_eq : path.target = .entry false
  obstacle?_eq : d.obstacle? path = none
  draft_ne : d.get? (draft path).name ≠ some .folder
  name_ne : d.get? path.name ≠ some .folder

end Directory

namespace FileStore

open Directory

/-- A file can be read once it has been made and filled. -/
theorem read_filled {d : Directory} {path : Path} (hobstacle : d.obstacle? path = none)
    (htarget : path.target = .entry false) (hfolder : d.get? path.name ≠ some .folder)
    (made filled : ByteArray) :
    ((d.set path.name (.file made)).set path.name (.file filled)).read path = .ok filled :=
  read_eq (obstacle?_set (obstacle?_set hobstacle hfolder) (by simp)) htarget get?_set_self

/-- A write goes through, and the next one will. -/
theorem save_eq {d : Directory} {path : Path} (h : d.Hosts path) (bytes : ByteArray) :
    ∃ d', save d path bytes none = (none, d') ∧ d'.read path = .ok bytes ∧ d'.Hosts path := by
  obtain ⟨htarget, hway⟩ := draft_of_target h.target_eq
  have hfollowed : d.obstacle? (draft path) = none := (obstacle?_congr hway).trans h.obstacle?_eq
  have hwrite : d.write (draft path) .empty = .ok (d.set (draft path).name (.file .empty)) :=
    write_eq hfollowed htarget h.draft_ne
  have hread := read_filled hfollowed htarget h.draft_ne .empty bytes
  generalize hfilled : (d.set (draft path).name (.file .empty)).set (draft path).name
    (.file bytes) = filled at hread
  have hfile : filled.get? (draft path).name ≠ some .folder := by
    rw [← hfilled, get?_set_self]
    simp
  have hobstacle : filled.obstacle? path = none := by
    rw [← hfilled]
    exact obstacle?_set (obstacle?_set h.obstacle?_eq h.draft_ne) (by simp)
  have hname : filled.get? path.name ≠ some .folder := by
    by_cases heq : path.name = (draft path).name
    · rwa [heq]
    · rw [← hfilled, get?_set_of_ne heq, get?_set_of_ne heq]
      exact h.name_ne
  have hrenamed : ((filled.erase (draft path).name).set path.name (.file bytes)).obstacle? path =
      none := obstacle?_renamed hobstacle hfile hname
  refine ⟨_, ?_, read_eq hrenamed h.target_eq get?_set_self, h.target_eq, hrenamed, ?_, ?_⟩
  · have hrename := rename_eq hread hobstacle h.target_eq hname
    simp only [save, hwrite, hfilled, hrename]
  · by_cases heq : (draft path).name = path.name
    · rw [heq, get?_set_self]
      simp
    · rw [get?_set_of_ne heq, get?_erase_self]
      simp
  · rw [get?_set_self]
    simp

/-- Where one write goes through nothing is in the way. -/
theorem hosts_of_save {d : Directory} {path : Path} {bytes : ByteArray}
    (h : (save d path bytes none).1 = none) : d.Hosts path := by
  cases hwrite : d.write (draft path) .empty with
  | error fault =>
      simp only [save, hwrite] at h
      cases h
  | ok made =>
      obtain ⟨hobstacle, htarget, hdraft, rfl⟩ := of_write_eq_ok hwrite
      have hread := read_filled hobstacle htarget hdraft .empty bytes
      cases hrename : ((d.set (draft path).name (.file .empty)).set (draft path).name
          (.file bytes)).rename (draft path) path with
      | error fault =>
          simp only [save, hwrite, hrename] at h
          cases h
      | ok d' =>
          obtain ⟨-, htarget', hname, -⟩ := of_rename_eq_ok hread hrename
          refine ⟨htarget', ?_, hdraft, fun hfolder => ?_⟩
          · rwa [← obstacle?_congr (draft_of_target htarget').2]
          · by_cases heq : path.name = (draft path).name
            · rw [heq] at hfolder
              exact hdraft hfolder
            · rw [get?_set_of_ne heq, get?_set_of_ne heq] at hname
              exact hname hfolder

end FileStore

end SealedLog
