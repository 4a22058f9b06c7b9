import Flowsmith.Fault
import Flowsmith.Files.Glob
import Flowsmith.Files.Path

/-!
# Stores of files

A migration works on a store of files: a state with the operations of `FileStore`. An operation
gives a result or a fault, and a new state in either case. Every store says how deep its directories
can lie, so that a search through them ends.

* `FileM` : an operation on a store;
* `FileStore` : the operations;
* `Files.find` : all files below a directory whose names match a pattern, in byte order;
* `Files.findFirst?`, `Files.isDirectory` : the first of them, and whether a path is a directory.
-/

namespace Flowsmith

/-- An operation on a store: a result or a fault, and the store afterwards. -/
abbrev FileM (σ : Type) : Type → Type := ExceptT Fault (StateM σ)

/-- What a store says about a path. -/
structure FileInfo where
  name : Bytes
  size : Nat
  isDirectory : Bool
  deriving DecidableEq, Repr

namespace FileInfo

def mode (i : FileInfo) : Bytes := if i.isDirectory then "drwxr-xr-x" else "-rw-r--r--"

end FileInfo

structure DirEntry where
  name : Bytes
  isDirectory : Bool
  deriving DecidableEq, Repr

/-- The operations of a store of files. -/
class FileStore (σ : Type) where
  stat : Bytes → FileM σ FileInfo
  read : Bytes → FileM σ Bytes
  write : Bytes → Bytes → FileM σ Unit
  remove : Bytes → FileM σ Unit
  makeDirs : Bytes → FileM σ Unit
  /-- The entries of a directory, in byte order of their names. -/
  list : Bytes → FileM σ (List DirEntry)
  /-- More than the number of directories that lie inside one another. -/
  nesting : σ → Nat

namespace Files

variable {σ : Type} [FileStore σ]

def pathFault (operation path reason : Bytes) : Fault :=
  .plain (operation ++ (" " : Bytes) ++ path ++ (": " : Bytes) ++ reason)

mutual

/-- The files below a directory whose names match, in the order in which they are met; directories
are entered `depth` deep. -/
def walk (ps : List Glob.Part) (depth : Nat) (dir : Bytes) : FileM σ (List Bytes) :=
  match depth with
  | 0 => pure []
  | depth + 1 => do
    let entries ← FileStore.list dir
    walkEntries ps depth dir entries
termination_by (depth, 0)

/-- The files among entries of a directory, and below them, whose names match. -/
def walkEntries (ps : List Glob.Part) (depth : Nat) (dir : Bytes) :
    List DirEntry → FileM σ (List Bytes)
  | [] => pure []
  | e :: es => do
    let path := Path.join dir e.name
    let found ←
      if e.isDirectory then walk ps depth path
      else pure (if Glob.matchesName ps e.name then [path] else [])
    let more ← walkEntries ps depth dir es
    return found ++ more
termination_by es => (depth, es.length + 1)

end

/-- All files below a directory whose names match a pattern, in byte order. -/
def find (root pattern : Bytes) : FileM σ (List Bytes) := do
  match Glob.parse? pattern with
  | none => throw (.plain "syntax error in pattern")
  | some ps =>
    let depth := FileStore.nesting (← get)
    return Bytes.sort (← walk ps depth root)

/-- The first file below a directory whose name matches a pattern. -/
def findFirst? (root pattern : Bytes) : FileM σ (Option Bytes) := do
  return (← find root pattern).head?

/-- Whether a path is a directory; a path that cannot be looked at is none. -/
def isDirectory (path : Bytes) : FileM σ Bool :=
  if path.isEmpty then pure false
  else tryCatch (do return (← FileStore.stat path).isDirectory) fun _ => pure false

end Files

end Flowsmith
