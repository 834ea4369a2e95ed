import SealedLog.Proofs.Snapshot.Document
import SealedLog.Proofs.Store.Directory
import SealedLog.Proofs.Store.Shelf

/-!
# A store in a file and one in memory

A store in a file keeps no roots on the disk, and its order and its keys are made anew when the
file is opened. What has to survive this is said by `Durable`: opening the file gives the store
as it stands. A write keeps it, `Durable.replace`, since its document is read back as the
snapshots of the shelf, and these are in order and of different roots. So it makes no difference
where in a sequence of calls the file is opened again, and the store in the file holds what one
in memory holds after the same calls: `run_eq_shelf`.
-/

namespace SealedLog

open Directory

/-- A call of a store, or that the file of a store is closed and opened again. -/
inductive StoreCall where
  | replace (old? : Option Hash) (s : Snapshot)
  | reopen
deriving DecidableEq, Repr

namespace StoreCall

/-- The numbers of what is written have 64 bits. -/
def Word64 : StoreCall → Prop
  | replace _ s => s.Word64
  | reopen => True

end StoreCall

/-- What a call does to a store in memory. -/
def Shelf.call (shelf : Shelf) : StoreCall → Shelf
  | .replace old? s => (SnapshotStore.replace shelf old? s).2
  | .reopen => shelf

namespace FileStore

/-- What a call does to a store in a file. -/
def call (store : FileStore) : StoreCall → Except StoreError FileStore
  | .replace old? s =>
    let (result, store) := SnapshotStore.replace store old? s
    result.map fun () => store
  | .reopen => open? store.directory store.path

/-- The store can be written, and its file opened again gives the store as it stands. -/
structure Durable (store : FileStore) : Prop where
  hosts : store.directory.Hosts store.path
  ordered : Ordered store.shelf.snapshots
  keyed : Keyed store.shelf.snapshots
  word64 : ∀ s ∈ store.shelf.snapshots, s.Word64
  open?_eq : open? store.directory store.path = .ok store

/-- The file has the document of what the store holds. -/
def Written (store : FileStore) : Prop :=
  ∃ bytes, store.directory.read store.path = .ok bytes ∧
    Snapshot.readDocument bytes.data.toList = .ok store.shelf.snapshots

/-- A file that has the document of some snapshots, in any order, is opened with just these. -/
theorem open?_document {d : Directory} {path : Path} {l listed : List Snapshot}
    (hfile : d.read path = .ok (Snapshot.document listed).toUTF8) (hperm : listed.Perm l)
    (hordered : Ordered l) (hkeyed : Keyed l) (hword : ∀ s ∈ l, s.Word64) :
    open? d path = .ok ⟨d, path, ⟨l⟩⟩ := by
  have hne : (Snapshot.document listed).toUTF8.isEmpty = false := by
    refine Bool.eq_false_iff.2 fun hempty => Snapshot.bytesOf_document_ne_nil listed ?_
    rw [ByteArray.isEmpty, beq_iff_eq] at hempty
    exact List.eq_nil_of_length_eq_zero hempty
  have hread : Snapshot.readDocument (Snapshot.document listed).toUTF8.data.toList = .ok listed :=
    Snapshot.readDocument_document fun s hs => hword s (hperm.mem_iff.1 hs)
  simp only [open?, hfile, hne, hread, ofList_eq_of_perm hperm hordered hkeyed]
  rfl

/-- A write goes through, and what is on the disk afterwards is what the store holds. -/
theorem Durable.replace {store : FileStore} (h : store.Durable) (old? : Option Hash)
    {s : Snapshot} (hs : s.Word64) :
    ∃ store', SnapshotStore.replace store old? s = (.ok (), store') ∧
      store'.shelf = store.shelf.replace old? s ∧ store'.path = store.path ∧
      store'.Durable ∧ store'.Written := by
  obtain ⟨d', hsave, hfile, hhosts⟩ := save_eq h.hosts
    (Snapshot.document (store.shelf.replace old? s).snapshots).toUTF8
  have hordered := h.ordered.replace old? s
  have hkeyed := h.keyed.replace old? s
  have hword : ∀ t ∈ (store.shelf.replace old? s).snapshots, t.Word64 := by
    intro t ht
    rcases mem_replace_iff.1 ht with rfl | ⟨ht, -⟩
    · exact hs
    · exact h.word64 t ht
  refine ⟨{ store with directory := d', shelf := store.shelf.replace old? s }, ?_, rfl, rfl,
    ⟨hhosts, hordered, hkeyed, hword, open?_document hfile (.refl _) hordered hkeyed hword⟩,
    _, hfile, Snapshot.readDocument_document hword⟩
  simp only [SnapshotStore.replace, replaceWith, hsave]

/-- A call on a store in a file does what it does on one in memory. -/
theorem Durable.call_eq {store : FileStore} (h : store.Durable) {call : StoreCall}
    (hcall : call.Word64) :
    ∃ store', store.call call = .ok store' ∧ store'.shelf = store.shelf.call call ∧
      store'.path = store.path ∧ store'.Durable ∧
      ((store.shelf.snapshots ≠ [] → store.Written) →
        store'.shelf.snapshots ≠ [] → store'.Written) := by
  cases call with
  | replace old? s =>
      obtain ⟨store', hreplace, hshelf, hpath, hdurable, hwritten⟩ := h.replace old? hcall
      have hcall_eq : store.call (.replace old? s) = .ok store' := by
        rw [FileStore.call, hreplace]
        rfl
      exact ⟨store', hcall_eq, hshelf, hpath, hdurable, fun _ _ => hwritten⟩
  | reopen => exact ⟨store, h.open?_eq, rfl, rfl, h, id⟩

theorem Durable.foldlM_call_eq {store : FileStore} (h : store.Durable)
    (hwritten : store.shelf.snapshots ≠ [] → store.Written) {calls : List StoreCall}
    (hcalls : ∀ call ∈ calls, call.Word64) :
    ∃ store', calls.foldlM call store = .ok store' ∧
      store'.shelf = calls.foldl Shelf.call store.shelf ∧ store'.path = store.path ∧
      store'.Durable ∧ (store'.shelf.snapshots ≠ [] → store'.Written) := by
  induction calls generalizing store with
  | nil => exact ⟨store, rfl, rfl, rfl, h, hwritten⟩
  | cons call calls ih =>
      obtain ⟨store₁, hcall, hshelf, hpath, hdurable, hkeeps⟩ :=
        h.call_eq (hcalls call List.mem_cons_self)
      obtain ⟨store', hrun, hshelf', hpath', hdurable', hwritten'⟩ :=
        ih hdurable (hkeeps hwritten) fun c hc => hcalls c (List.mem_cons_of_mem call hc)
      refine ⟨store', ?_, ?_, by rw [hpath', hpath], hdurable', hwritten'⟩
      · rw [List.foldlM_cons, hcall]
        exact hrun
      · rw [hshelf', hshelf, List.foldl_cons]

/-- A missing or empty file, where nothing keeps it from being written. -/
structure Fresh (d : Directory) (path : Path) : Prop where
  read_eq : d.read path = .error .notFound ∨ d.read path = .ok .empty
  writable : (save d path .empty none).1 = none

theorem Fresh.durable {d : Directory} {path : Path} (h : Fresh d path) :
    open? d path = .ok ⟨d, path, .empty⟩ ∧ Durable ⟨d, path, .empty⟩ := by
  have hopen : open? d path = .ok ⟨d, path, .empty⟩ := by
    rcases h.read_eq with hread | hread
    · simp only [open?, hread]
    · simp only [open?, hread]
      rfl
  refine ⟨hopen, ⟨hosts_of_save h.writable, List.Pairwise.nil, List.nodup_nil, ?_, hopen⟩⟩
  intro s hs
  cases hs

/-- A store in a file that is missing or empty at first, under any calls that replace
snapshots, and with the file opened again at any of them. No call fails. The store lists the
same snapshots as one in memory under the same calls does, in the order of their indices and no
two under one root. If the file is opened then, it gives the same store; and if there are
snapshots, the text in the file is that of just these. So it is if the snapshots were written in
any other order. -/
theorem run_eq_shelf {d : Directory} {path : Path} (hfresh : Fresh d path)
    {calls : List StoreCall} (hcalls : ∀ call ∈ calls, call.Word64) :
    ∃ opened store found, open? d path = .ok opened ∧
      calls.foldlM call opened = .ok store ∧
      SnapshotStore.load store = .ok found ∧
      SnapshotStore.load (calls.foldl Shelf.call .empty) = .ok found ∧
      found.Pairwise (fun s t => s.treeIndex ≤ t.treeIndex) ∧
      (found.map Snapshot.rootHash).Nodup ∧
      open? store.directory path = .ok store ∧
      (found ≠ [] → ∃ bytes, store.directory.read path = .ok bytes ∧
        Snapshot.readDocument bytes.data.toList = .ok found) ∧
      ∀ (d' : Directory) (listed : List Snapshot), listed.Perm found →
        d'.read path = .ok (Snapshot.document listed).toUTF8 →
          open? d' path = .ok { store with directory := d' } := by
  obtain ⟨hopen, hdurable⟩ := hfresh.durable
  obtain ⟨store, hrun, hshelf, hpath, hdurable', hwritten⟩ :=
    hdurable.foldlM_call_eq (fun hne => absurd rfl hne) hcalls
  obtain ⟨d', path', shelf⟩ := store
  obtain rfl : path' = path := hpath
  refine ⟨_, _, shelf.snapshots, hopen, hrun, rfl, ?_, hdurable'.ordered.treeIndex_le,
    hdurable'.keyed, hdurable'.open?_eq, hwritten, fun d'' listed hperm hfile => ?_⟩
  · rw [← hshelf]
    rfl
  · exact open?_document hfile hperm hdurable'.ordered hdurable'.keyed hdurable'.word64

/-- Two snapshots in a file that was not there, the later one with the lower index, and the file
opened again between them. -/
def twoCalls : List StoreCall :=
  [.replace none ⟨"\"é\n", 1, [["\x00", "𝄞"]], [["b"]], 7⟩, .reopen,
    .replace (some "none") ⟨"a", 0, [], [[]], 18446744073709551615⟩]

theorem run_eq_shelf_twoCalls :
    Fresh .empty (.ofString "snapshots.json") ∧ (∀ call ∈ twoCalls, call.Word64) ∧
    ∃ opened store, open? .empty (.ofString "snapshots.json") = .ok opened ∧
      twoCalls.foldlM call opened = .ok store ∧
      open? store.directory (.ofString "snapshots.json") = .ok store ∧
      SnapshotStore.load store = .ok [⟨"a", 0, [], [[]], 18446744073709551615⟩,
        ⟨"\"é\n", 1, [["\x00", "𝄞"]], [["b"]], 7⟩] := by
  have hfresh : Fresh .empty (.ofString "snapshots.json") := ⟨Or.inl rfl, rfl⟩
  have hcalls : ∀ call ∈ twoCalls, call.Word64 := by
    intro call hcall
    simp only [twoCalls, List.mem_cons, List.not_mem_nil, or_false] at hcall
    rcases hcall with rfl | rfl | rfl
    · exact ⟨by decide, by decide⟩
    · trivial
    · exact ⟨by decide, by decide⟩
  obtain ⟨opened, store, found, hopen, hrun, hload, hshelf, -, -, hreopen, -, -⟩ :=
    run_eq_shelf hfresh hcalls
  refine ⟨hfresh, hcalls, opened, store, hopen, hrun, hreopen, ?_⟩
  refine hload.trans (hshelf.symm.trans ?_)
  decide

end FileStore

end SealedLog
