import BranchFusion.Table
import BranchFusion.Text.Blank

/-!
# Trees of files

What a command sees of a file system: regular files by path, below the directory it is run in. A
directory is there when a file lies below it. Paths are read component by component; every component
but the last has to be a directory, and a path that ends in a slash has to be one as a whole. Names
and paths have a greatest length.

Of what lies outside of the tree little is known: there are the directories above it, and the root
directory with the null device.
-/

namespace BranchFusion

/-- Why a path cannot be used. -/
inductive FileCause
  | notFound
  | isDirectory
  | notDirectory
  | nameTooLong
  /-- A path with a null character. -/
  | invalid
deriving DecidableEq, Repr

/-- The wording of a cause. -/
def FileCause.message : FileCause → String
  | .notFound => "no such file or directory"
  | .isDirectory => "is a directory"
  | .notDirectory => "not a directory"
  | .nameTooLong => "file name too long"
  | .invalid => "invalid argument"

/-- A failed use of a path: what was tried, the path as it was given, and the cause. -/
structure FileError where
  action : String
  path : String
  cause : FileCause
deriving DecidableEq, Repr

/-- The wording of an error. -/
def FileError.message (e : FileError) : String :=
  e.action ++ " " ++ e.path ++ ": " ++ e.cause.message

/-- Where a path leads. -/
inductive Place
  /-- Below the directory of the command, by components. -/
  | inside (components : List String)
  /-- A directory above that of the command. -/
  | above
  /-- By components from the root. -/
  | fromRoot (components : List String)
  /-- Where nothing is known to be. -/
  | elsewhere
deriving DecidableEq, Repr, Inhabited

namespace Place

/-- The place of a name in a directory. -/
def child (p : Place) (name : String) : Place :=
  match p with
  | .inside cs => .inside (cs ++ [name])
  | .fromRoot cs => .fromRoot (cs ++ [name])
  | _ => .elsewhere

/-- The directory around a directory. -/
def parent : Place → Place
  | .inside [] => .above
  | .inside cs => .inside cs.dropLast
  | .fromRoot cs => .fromRoot cs.dropLast
  | p => p

end Place

/-- What can be at a place. -/
inductive Entry
  | directory
  | file (content : String)
  /-- The device that is always empty and swallows what is written. -/
  | nullDevice
deriving DecidableEq, Repr, Inhabited

/-- Regular files, by the components of their paths. -/
structure FileTree where
  files : Table (List String) String := []
deriving DecidableEq, Repr, Inhabited

namespace FileTree

/-- The components of a path. -/
def components (path : String) : List String := path.splitOn "/"

/-- A tree with files at the given paths. -/
def ofList (files : List (String × String)) : FileTree :=
  ⟨files.map fun e => ((components e.1).filter fun c => c ≠ "" ∧ c ≠ ".", e.2)⟩

/-- The files of a tree with their paths. -/
def toList (t : FileTree) : List (String × String) :=
  t.files.map fun e => (Text.join "/" e.1, e.2)

/-- What is at a place. -/
def entry? (t : FileTree) : Place → Option Entry
  | .inside cs =>
    if cs.isEmpty || t.files.any fun e => cs.isPrefixOf e.1 && e.1 != cs then some .directory
    else (t.files.get? cs).map .file
  | .above => some .directory
  | .fromRoot cs =>
    if cs ∈ [[], ["dev"], ["tmp"]] then some .directory
    else if cs = ["dev", "null"] then some .nullDevice
    else none
  | .elsewhere => none

/-- The greatest number of bytes of a name. -/
def nameLimit : Nat := 255

/-- The greatest number of bytes of a path. -/
def pathLimit : Nat := 4095

/-- Follows components from a place. Each step has to start in a directory; the place where the last
one leads need not exist. -/
def walk (t : FileTree) : Place → List String → Except FileCause Place
  | p, [] => .ok p
  | p, c :: cs =>
    match t.entry? p with
    | none => .error .notFound
    | some .directory =>
      if c = "" ∨ c = "." then t.walk p cs
      else if c = ".." then t.walk p.parent cs
      else if nameLimit < c.utf8ByteSize then .error .nameTooLong
      else t.walk (p.child c) cs
    | some _ => .error .notDirectory

/-- Follows components from where a path begins, if the path as a whole can be used. The empty path
leads nowhere. -/
def follow (t : FileTree) (path : String) (cs : List String) : Except FileCause Place :=
  if path.toList.contains '\x00' then .error .invalid
  else if pathLimit < path.utf8ByteSize then .error .nameTooLong
  else if path = "" then .error .notFound
  else t.walk (if Text.startsWith "/" path then .fromRoot [] else .inside []) cs

/-- The place that a path leads to. -/
def resolve (t : FileTree) (path : String) : Except FileCause Place :=
  t.follow path (components path)

/-- Whether there is something at a path. -/
def contains (t : FileTree) (path : String) : Bool :=
  match t.resolve path with
  | .ok place => (t.entry? place).isSome
  | .error _ => false

/-- **The content of the file at a path.** -/
def read (t : FileTree) (path : String) : Except FileError String :=
  match t.resolve path with
  | .error e => .error ⟨"open", path, e⟩
  | .ok place =>
    match t.entry? place with
    | some .directory => .error ⟨"read", path, .isDirectory⟩
    | some (.file s) => .ok s
    | some .nullDevice => .ok ""
    | none => .error ⟨"open", path, .notFound⟩

/-- The components of a path without the slashes at its end. -/
def bareComponents (path : String) : List String :=
  components (String.ofList (path.toList.reverse.dropWhile (· == '/')).reverse)

/-- Writes to a place. What is written outside of the tree is out of sight. -/
def writeAt (t : FileTree) (place : Place) (content : String) : Except FileCause FileTree :=
  match t.entry? place, place with
  | some .directory, _ => .error .isDirectory
  | _, .inside cs => .ok ⟨t.files.set cs content⟩
  | _, _ => .ok t

/-- **Writes a file**, which may be new. A path that ends in a slash can only be a directory. -/
def write (t : FileTree) (path content : String) : Except FileError FileTree :=
  let result :=
    if path ≠ "" ∧ path.toList.getLast? = some '/' then do
      let _ ← t.follow path (bareComponents path).dropLast
      throw .isDirectory
    else do t.writeAt (← t.resolve path) content
  result.mapError fun e => ⟨"open", path, e⟩

/-- The files that are new or have changed since an earlier state. -/
def changedSince (t earlier : FileTree) : List (String × String) :=
  FileTree.toList ⟨t.files.filter fun e => earlier.files.get? e.1 != some e.2⟩

end FileTree

end BranchFusion
