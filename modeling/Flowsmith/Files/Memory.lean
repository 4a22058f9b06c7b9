import Flowsmith.Files.Store

/-!
# Files in memory

A store of files as a table from absolute, clean paths to files and directories. Paths may be
written in any way; they count from the root. For every path but the root the directory above is in
the table too. Single paths can be made to fail.

* `Memory.normalize` : the path of the table for a written path;
* `Memory.empty` : the root alone;
* `Memory.refuse` : makes every access to a path fail;
* `Memory.files` : the paths of all files.
-/

namespace Flowsmith

/-- What stands at a path. -/
inductive MemoryEntry where
  | file (content : Bytes)
  | directory
  deriving DecidableEq, Repr

namespace MemoryEntry

def isDirectory : MemoryEntry → Bool
  | .directory => true
  | .file _ => false

/-- The number of bytes of a file, zero for a directory. -/
def size : MemoryEntry → Nat
  | .directory => 0
  | .file content => content.length

end MemoryEntry

structure Memory where
  table : List (Bytes × MemoryEntry)
  /-- The paths that fail, with their messages. -/
  refused : List (Bytes × Bytes) := []
  reads : Nat := 0
  writes : Nat := 0
  deriving DecidableEq, Repr

namespace Memory

def root : Bytes := [Path.slash]

def empty : Memory := { table := [(root, .directory)] }

def normalize (p : Bytes) : Bytes :=
  if Path.isAbsolute p then Path.clean p else Path.clean (Path.join root p)

def lookup (m : Memory) (path : Bytes) : Option MemoryEntry :=
  (m.table.find? (·.1 == path)).map (·.2)

def put (m : Memory) (path : Bytes) (e : MemoryEntry) : Memory :=
  { m with table :=
      if m.table.any (·.1 == path) then
        m.table.map fun entry => if entry.1 == path then (path, e) else entry
      else m.table ++ [(path, e)] }

def erase (m : Memory) (path : Bytes) : Memory :=
  { m with table := m.table.filter (·.1 != path) }

/-- The message with which a path of the table fails. -/
def refusal? (m : Memory) (path : Bytes) : Option Bytes :=
  (m.refused.find? (·.1 == path)).map (·.2)

/-- Makes every access to a path fail with a message. -/
def refuse (m : Memory) (path message : Bytes) : Memory :=
  { m with refused :=
      (normalize path, message) :: m.refused.filter (·.1 != normalize path) }

/-- The entries of the table that lie in a directory. -/
def children (m : Memory) (dir : Bytes) : List (Bytes × MemoryEntry) :=
  m.table.filter fun entry => entry.1 != root && Path.directory entry.1 == dir

def files (m : Memory) : List Bytes :=
  Bytes.sort ((m.table.filter fun entry => !entry.2.isDirectory).map (·.1))

def entryAt (p : Bytes) : FileM Memory MemoryEntry := do
  let m ← get
  let path := normalize p
  match m.refusal? path with
  | some message => throw (.plain message)
  | none =>
    match m.lookup path with
    | some e => return e
    | none => throw (Files.pathFault "open" path "file does not exist")

/-- Makes the directories along a list of names below `dir`. -/
def makeDirsFrom (dir : Bytes) : List Bytes → FileM Memory Unit
  | [] => pure ()
  | name :: names => do
    if ((← get).lookup root).isNone then throw (.aborted .missingRoot)
    let path := Path.join dir name
    match (← get).lookup path with
    | none =>
      modify (·.put path .directory)
      makeDirsFrom path names
    | some .directory => makeDirsFrom path names
    | some (.file _) => throw (Files.pathFault "mkdir" path "not a directory")

def makeDirs (p : Bytes) : FileM Memory Unit := do
  let path := normalize p
  match (← get).lookup path with
  | some .directory => pure ()
  | some (.file _) => throw (Files.pathFault "mkdir" path "file exists")
  | none => makeDirsFrom root (Path.parts path)

def stat (p : Bytes) : FileM Memory FileInfo := do
  let e ← entryAt p
  return ⟨Path.base (normalize p), e.size, e.isDirectory⟩

def read (p : Bytes) : FileM Memory Bytes := do
  modify fun m => { m with reads := m.reads + 1 }
  match ← entryAt p with
  | .file content => return content
  | .directory => throw (Files.pathFault "read" p "is a directory")

def write (p content : Bytes) : FileM Memory Unit := do
  modify fun m => { m with writes := m.writes + 1 }
  let path := normalize p
  match (← get).refusal? path with
  | some message => throw (.plain message)
  | none =>
    makeDirs (Path.directory path)
    if ((← get).lookup root).isNone then throw (.aborted .missingRoot)
    match (← get).lookup path with
    | some .directory => throw (Files.pathFault "write" p "is a directory")
    | _ => modify (·.put path (.file content))

def remove (p : Bytes) : FileM Memory Unit := do
  let path := normalize p
  let e ← entryAt path
  if e.isDirectory && !((← get).children path).isEmpty then
    throw (Files.pathFault "remove" p "directory not empty")
  modify (·.erase path)

def list (p : Bytes) : FileM Memory (List DirEntry) := do
  match ← entryAt p with
  | .file _ => throw (Files.pathFault "readdir" p "not a directory")
  | .directory =>
    let entries := ((← get).children (normalize p)).map fun e =>
      (⟨Path.base e.1, e.2.isDirectory⟩ : DirEntry)
    return entries.mergeSort fun a b => Bytes.le a.name b.name

instance : FileStore Memory where
  stat := stat
  read := read
  write := write
  remove := remove
  makeDirs := makeDirs
  list := list
  nesting m := m.table.length + 1

end Memory

end Flowsmith
