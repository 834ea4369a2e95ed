/-!
# Paths

A path is what stands between its slashes, part by part. It is read in two ways. To give a
file another ending, empty parts and single dots at the end are passed over, and what is left
has to end in a name. The file system looks for the last part in the folder that those before
it lead to; there a slash at the end says that it is to be a folder, and a dot stands for one.
Two dots lead back, so that two paths may lead to one file, `name`, by different folders, `way`.
-/

namespace SealedLog

/-- The parts of a path, the last one first. -/
structure Path where
  parts : List String
deriving DecidableEq, Repr

namespace Path

/-- What stands between the slashes of a text. -/
def split : List Char → List (List Char)
  | [] => [[]]
  | c :: cs =>
    if c = '/' then [] :: split cs
    else
      match split cs with
      | [] => [[c]]
      | part :: rest => (c :: part) :: rest

def ofString (text : String) : Path :=
  ⟨((split text.toList).map String.ofList).reverse⟩

/-- Whether a part is the name of something in a folder. Nothing and a dot stay in the folder,
two dots lead back from it. -/
def isName (part : String) : Bool :=
  part != "" && part != "." && part != ".."

/-! ### Endings -/

/-- Whether a part makes no difference to the end of a path. -/
def isIdle (part : String) : Bool :=
  part == "" || part == "."

/-- The file that a path ends in, by its name and the parts before. -/
def file? (path : Path) : Option (String × List String) :=
  match path.parts.dropWhile isIdle with
  | [] => none
  | last :: before => if last = ".." then none else some (last, before)

/-- A name without its ending: what stands before the last dot, unless that is the first
character. -/
def stem (name : String) : String :=
  let before := (name.toList.reverse.dropWhile (· != '.')).drop 1
  if before.isEmpty then name else String.ofList before.reverse

def withEnding (name ending : String) : String :=
  stem name ++ "." ++ ending

/-- The path with another ending of its file, if it ends in a file. What comes after the name
is dropped. -/
def withExtension (path : Path) (ending : String) : Path :=
  match path.file? with
  | none => path
  | some (name, before) => ⟨withEnding name ending :: before⟩

/-! ### Lookup -/

/-- Leads back from what has been reached. Two dots that nothing can be taken back for are kept,
and the root is not left. -/
def back : List String → List String
  | [] => [".."]
  | last :: before =>
    if isName last then before
    else if last = "" then last :: before
    else ".." :: last :: before

/-- Where parts lead to, by the names that are left, the last one first. Nothing at the start
is the root. -/
def resolve : List String → List String
  | [] => []
  | part :: before =>
    if isName part then part :: resolve before
    else if part = ".." then back (resolve before)
    else if part = "" ∧ before = [] then [""]
    else resolve before

/-- The folders that parts lead through, or to, by their names. -/
def folders : List String → List (List String)
  | [] => []
  | part :: before =>
    if isName part then (part :: resolve before) :: folders before else folders before

/-- What the file system knows a path by. -/
def name (path : Path) : List String :=
  resolve path.parts

/-- What the last part of a path asks for. -/
inductive Target where
  /-- The path is empty. -/
  | nothing
  /-- A folder that goes by its place. -/
  | place
  /-- What has a name. If slashes follow, it is to be a folder. -/
  | entry (slashed : Bool)
deriving DecidableEq, Repr

def target (path : Path) : Target :=
  match path.parts.dropWhile (· == "") with
  | [] => if path.parts.length ≤ 1 then .nothing else .place
  | last :: _ => if isName last then .entry (path.parts.head? == some "") else .place

/-- The folders on the way to the last part. -/
def way (path : Path) : List (List String) :=
  folders ((path.parts.dropWhile (· == "")).drop 1)

end Path

end SealedLog
