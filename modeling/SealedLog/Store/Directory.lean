import SealedLog.Store.Basic
import SealedLog.Store.Path

/-!
# A directory of files

What a file store sees of the file system: names and what they stand for, a file with its
bytes or a directory. The operations are those that the store needs, with the faults that a
file system reports for them; what else is in a directory is of no concern.

A path may lead through directories, as in `a/b` or `a/../b`; then `a` has to be one. The
working directory, those above it and the root are there in any case, and are known only as
such: a directory that the working directory is in has no other name. There are no links.
-/

namespace SealedLog

inductive DirectoryEntry where
  | file (bytes : ByteArray)
  | folder

/-- Entries by the names of the paths that lead to them. -/
structure Directory where
  entries : List (List String × DirectoryEntry)

namespace Directory

def empty : Directory := ⟨[]⟩

def get? (d : Directory) (name : List String) : Option DirectoryEntry :=
  d.entries.lookup name

def erase (d : Directory) (name : List String) : Directory :=
  ⟨d.entries.filter (·.1 != name)⟩

/-- Makes a name stand for an entry, whatever it stood for before. -/
def set (d : Directory) (name : List String) (entry : DirectoryEntry) : Directory :=
  ⟨(name, entry) :: (d.erase name).entries⟩

/-- The fault at the first folder of a way, which is the last of the list, that is missing or
is no directory, if there is one. -/
def barrier? (d : Directory) : List (List String) → Option IoFault
  | [] => none
  | name :: before =>
    match d.barrier? before with
    | some fault => some fault
    | none =>
      match d.get? name with
      | none => some .notFound
      | some (.file _) => some .notADirectory
      | some .folder => none

/-- The fault that keeps a path from being followed to its last part, if there is one. -/
def obstacle? (d : Directory) (path : Path) : Option IoFault :=
  d.barrier? path.way

/-- What a path stands for. -/
def find (d : Directory) (path : Path) : Except IoFault DirectoryEntry :=
  match d.obstacle? path, path.target with
  | some fault, _ => .error fault
  | none, .nothing => .error .notFound
  | none, .place => .ok .folder
  | none, .entry slashed =>
    match d.get? path.name with
    | none => .error .notFound
    | some .folder => .ok .folder
    | some (.file bytes) => if slashed then .error .notADirectory else .ok (.file bytes)

def read (d : Directory) (path : Path) : Except IoFault ByteArray :=
  match d.find path with
  | .error fault => .error fault
  | .ok .folder => .error .isADirectory
  | .ok (.file bytes) => .ok bytes

/-- Makes a file of the given bytes, or writes over one that is there. -/
def write (d : Directory) (path : Path) (bytes : ByteArray) : Except IoFault Directory :=
  match d.obstacle? path, path.target with
  | some fault, _ => .error fault
  | none, .nothing => .error .notFound
  | none, .place => .error .isADirectory
  | none, .entry slashed =>
    match slashed, d.get? path.name with
    | true, _ => .error .isADirectory
    | false, some .folder => .error .isADirectory
    | false, _ => .ok (d.set path.name (.file bytes))

/-- Gives a file another name, in place of a file that has it. -/
def rename (d : Directory) (old new : Path) : Except IoFault Directory :=
  match d.read old, d.obstacle? new, new.target with
  | .error fault, _, _ => .error fault
  | .ok _, some fault, _ => .error fault
  | .ok _, none, .nothing => .error .notFound
  | .ok _, none, .place => .error .busy
  | .ok bytes, none, .entry slashed =>
    match slashed, d.get? new.name with
    | true, _ => .error .notADirectory
    | false, some .folder => .error .isADirectory
    | false, _ => .ok ((d.erase old.name).set new.name (.file bytes))

def removeFile (d : Directory) (path : Path) : Except IoFault Directory :=
  match d.find path with
  | .error fault => .error fault
  | .ok (.file _) => .ok (d.erase path.name)
  | .ok .folder => .error .isADirectory

/-- Makes a directory, unless the name is taken; says whether it did. -/
def makeFolder (d : Directory) (path : Path) : Directory × Bool :=
  match d.obstacle? path, path.target, d.get? path.name with
  | none, .entry _, none => (d.set path.name .folder, true)
  | _, _, _ => (d, false)

/-- Removes a directory that nothing is in; says whether it did. -/
def removeFolder (d : Directory) (path : Path) : Directory × Bool :=
  match d.obstacle? path, path.target, d.get? path.name with
  | none, .entry _, some .folder =>
    if d.entries.any (·.1.drop 1 == path.name) then (d, false) else (d.erase path.name, true)
  | _, _, _ => (d, false)

def names (d : Directory) : List String :=
  (d.entries.map fun (name, _) => "/".intercalate name.reverse).mergeSort
    fun a b => decide (a ≤ b)

end Directory

end SealedLog
