import BranchFusion.CommandLine.FileTree
import BranchFusion.Journal

/-!
# Hosts

A command reads files and its standard input, writes files, and prints. A *host* is what does this
for it. Commands are written for any host; here is one that is a value, a `World`, so that what a
command does is a function from worlds to worlds.
-/

namespace BranchFusion

/-- What a command needs. -/
class Host (m : Type → Type) where
  /-- The content of a file. -/
  readFile : String → m (Except FileError String)
  /-- Whether there is something at a path. -/
  exists? : String → m Bool
  writeFile : String → String → m (Except FileError Unit)
  /-- Whatever is left of the standard input. -/
  readInput : m String
  putOut : String → m Unit
  putErr : String → m Unit
  /-- Notes an entry of the journal. -/
  note : JournalEntry → m Unit

/-- A world in which a command runs: files, the standard input that has not been read, and what has
been printed. -/
structure World where
  files : FileTree := {}
  input : String := ""
  out : String := ""
  err : String := ""
  notes : Array JournalEntry := #[]
deriving DecidableEq, Repr, Inhabited

instance : Host (StateM World) where
  readFile path := fun w => (w.files.read path, w)
  exists? path := fun w => (w.files.contains path, w)
  writeFile path content := fun w =>
    match w.files.write path content with
    | .ok t => (.ok (), { w with files := t })
    | .error e => (.error e, w)
  readInput := fun w => (w.input, { w with input := "" })
  putOut s := fun w => ((), { w with out := w.out ++ s })
  putErr s := fun w => ((), { w with err := w.err ++ s })
  note e := fun w => ((), { w with notes := w.notes.push e })

end BranchFusion
