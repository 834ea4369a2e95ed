import SealedLog.Snapshot.Text
import SealedLog.Store.Directory

/-!
# A store in one file

All snapshots in one document, which is written anew with every change. So that the file
is never seen half written, the document goes into a second file first, the draft, which
then takes the name of the first. What the store holds in memory changes only once that
has happened.

A write goes through four steps: making the draft, filling it, making sure that it is on
the disk, and renaming it. `save` takes them in turn; a `Mishap` says at which of them a
write goes wrong or the program stops, and what has been written to the draft by then.
The only mishaps without a cause in the directory itself are those that are passed in.
-/

namespace SealedLog

/-- The way in which a write comes to an end before its last step. -/
inductive Mishap where
  /-- The draft cannot be made. -/
  | making (fault : IoFault)
  /-- Only some bytes get into the draft. -/
  | filling (written : Nat) (fault : IoFault)
  /-- The draft cannot be brought to the disk. -/
  | syncing (fault : IoFault)
  /-- The draft cannot be renamed. -/
  | renaming (fault : IoFault)
deriving DecidableEq, Repr

/-- A store whose contents are written through to a file. -/
structure FileStore where
  directory : Directory
  path : Path
  shelf : Shelf

namespace FileStore

/-- The path of the draft: that of the file with the ending `tmp`. -/
def draft (path : Path) : Path :=
  path.withExtension "tmp"

/-- Opens the store in a file. A file that is missing or empty is a store without
snapshots. -/
def open? (directory : Directory) (path : Path) : Except StoreError FileStore :=
  match directory.read path with
  | .error .notFound => .ok ⟨directory, path, .empty⟩
  | .error fault => .error (.io fault)
  | .ok bytes =>
    if bytes.isEmpty then .ok ⟨directory, path, .empty⟩
    else
      match Snapshot.readDocument bytes.data.toList with
      | .error detail => .error (.serialization detail)
      | .ok snapshots => .ok ⟨directory, path, .ofList snapshots⟩

/-- Writes bytes to a file by way of a draft. Gives the directory as it is afterwards and
the fault that ended the write, if one did. -/
def save (directory : Directory) (path : Path) (bytes : ByteArray)
    (mishap? : Option Mishap) : Option IoFault × Directory :=
  match mishap? with
  | some (.making fault) => (some fault, directory)
  | _ =>
    match directory.write (draft path) .empty with
    | .error fault => (some fault, directory)
    | .ok made =>
      let fill (part : ByteArray) := made.set (draft path).name (.file part)
      match mishap? with
      | some (.filling written fault) => (some fault, fill (bytes.extract 0 written))
      | some (.syncing fault) => (some fault, fill bytes)
      | some (.renaming fault) => (some fault, fill bytes)
      | _ =>
        match (fill bytes).rename (draft path) path with
        | .error fault => (some fault, fill bytes)
        | .ok directory => (none, directory)

/-- As `replace`, with a mishap on the way if one is given. -/
def replaceWith (store : FileStore) (old? : Option Hash) (s : Snapshot)
    (mishap? : Option Mishap) : Except StoreError Unit × FileStore :=
  let next := store.shelf.replace old? s
  let bytes := (Snapshot.document next.snapshots).toUTF8
  match save store.directory store.path bytes mishap? with
  | (some fault, directory) => (.error (.io fault), { store with directory })
  | (none, directory) => (.ok (), { store with directory, shelf := next })

instance : SnapshotStore FileStore where
  replace store old? s := store.replaceWith old? s none
  load store := .ok store.shelf.snapshots

end FileStore

end SealedLog
