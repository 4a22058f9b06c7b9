import Flowsmith.Files.Memory

/-!
# Files on a disk

A store of files as an operating system shows it to a program: a path counts from the root or from
the working directory, and is followed part by part, so that every part but the last must be a
directory that exists.

* `Disk.ofFiles` : a working directory with directories and files;
* `Disk.follow` : the place that a path leads to;
* `Disk.files` : the paths and contents of all files;
* `Disk.filesBeyond`, `Disk.pathsBeyond` : what one disk has and another one has not.
-/

namespace Flowsmith

/-- A tree of files: what stands at each list of names. -/
structure Disk where
  /-- The working directory. -/
  base : List Bytes := []
  nodes : List (List Bytes × MemoryEntry) := []
  deriving DecidableEq, Repr

namespace Disk

/-- Why a path leads nowhere. -/
inductive Obstacle where
  | missing
  | notDirectory
  | isDirectory
  | notEmpty
  deriving DecidableEq, Repr

namespace Obstacle

def text : Obstacle → Bytes
  | missing => "no such file or directory"
  | notDirectory => "not a directory"
  | isDirectory => "is a directory"
  | notEmpty => "directory not empty"

end Obstacle

/-- What stands at a list of names; what leads to the working directory is always there. -/
def lookup (d : Disk) (names : List Bytes) : Option MemoryEntry :=
  if names.isPrefixOf d.base then some .directory
  else (d.nodes.find? (·.1 == names)).map (·.2)

def put (d : Disk) (names : List Bytes) (e : MemoryEntry) : Disk :=
  { d with nodes := d.nodes.filter (·.1 != names) ++ [(names, e)] }

def erase (d : Disk) (names : List Bytes) : Disk :=
  { d with nodes := d.nodes.filter (·.1 != names) }

def followFrom (d : Disk) (place : List Bytes) : List Bytes → Except Obstacle (List Bytes)
  | [] => .ok place
  | part :: parts =>
    match d.lookup place with
    | none => .error .missing
    | some (.file _) => .error .notDirectory
    | some .directory =>
      if part.isEmpty || part == Path.here then followFrom d place parts
      else if part == Path.above then followFrom d place.dropLast parts
      else followFrom d (place ++ [part]) parts

/-- The place that a path leads to; its last part may be missing. -/
def follow (d : Disk) (path : Bytes) : Except Obstacle (List Bytes) :=
  if path.isEmpty then .error .missing
  else
    followFrom d (if Path.isAbsolute path then [] else d.base) (Bytes.splitOn Path.slash path)

def entryAt (d : Disk) (path : Bytes) : Except Obstacle (List Bytes × MemoryEntry) := do
  let place ← d.follow path
  match d.lookup place with
  | some e => return (place, e)
  | none => .error .missing

/-- The result of following a path, or the fault of an operation on it. -/
def orFault {α : Type} (operation path : Bytes) : Except Obstacle α → FileM Disk α
  | .ok a => pure a
  | .error o => throw (Files.pathFault operation path o.text)

def children (d : Disk) (place : List Bytes) : List (Bytes × MemoryEntry) :=
  d.nodes.filterMap fun (names, e) =>
    match names.getLast? with
    | some name => if names.dropLast == place then some (name, e) else none
    | none => none

def stat (path : Bytes) : FileM Disk FileInfo := do
  let (_, e) ← orFault "stat" path ((← get).entryAt path)
  return ⟨Path.base path, e.size, e.isDirectory⟩

def read (path : Bytes) : FileM Disk Bytes := do
  match ← orFault "open" path ((← get).entryAt path) with
  | (_, .file content) => return content
  | (_, .directory) => throw (Files.pathFault "read" path Obstacle.isDirectory.text)

def write (path content : Bytes) : FileM Disk Unit := do
  let d ← get
  let place ← orFault "open" path (d.follow path)
  match d.lookup place, d.lookup place.dropLast with
  | some .directory, _ => throw (Files.pathFault "open" path Obstacle.isDirectory.text)
  | _, some .directory => set (d.put place (.file content))
  | _, _ => throw (Files.pathFault "open" path Obstacle.missing.text)

def remove (path : Bytes) : FileM Disk Unit := do
  let d ← get
  let (place, e) ← orFault "remove" path (d.entryAt path)
  if e.isDirectory && !(d.children place).isEmpty then
    throw (Files.pathFault "remove" path Obstacle.notEmpty.text)
  set (d.erase place)

/-- Makes the directories along a list of names; `place` are those that exist. -/
def makeDirsFrom (path : Bytes) (place : List Bytes) : List Bytes → FileM Disk Unit
  | [] => pure ()
  | name :: names => do
    let next := place ++ [name]
    match (← get).lookup next with
    | some (.file _) => throw (Files.pathFault "mkdir" path Obstacle.notDirectory.text)
    | some .directory => makeDirsFrom path next names
    | none =>
      modify (·.put next .directory)
      makeDirsFrom path next names

def makeDirs (path : Bytes) : FileM Disk Unit := do
  let d ← get
  makeDirsFrom path (if Path.isAbsolute path then [] else d.base) (Path.parts path)

def list (path : Bytes) : FileM Disk (List DirEntry) := do
  let d ← get
  match ← orFault "open" path (d.entryAt path) with
  | (_, .file _) => throw (Files.pathFault "open" path Obstacle.notDirectory.text)
  | (place, .directory) =>
    let entries := (d.children place).map fun (name, e) => (⟨name, e.isDirectory⟩ : DirEntry)
    return entries.mergeSort fun a b => Bytes.le a.name b.name

instance : FileStore Disk where
  stat := stat
  read := read
  write := write
  remove := remove
  makeDirs := makeDirs
  list := list
  nesting d := d.nodes.length + 1

/-- Puts a file into a directory, which is made when it is missing. -/
def addFile (path content : Bytes) : FileM Disk Unit := do
  makeDirs (Path.directory path)
  write path content

/-- A working directory with directories and files; the fault of what cannot be made. -/
def ofFiles (base dirs : List Bytes) (files : List (Bytes × Bytes)) : Except Fault Disk :=
  let fill : FileM Disk Unit := do
    dirs.forM makeDirs
    files.forM fun f => addFile f.1 f.2
  match fill.run { base := base } with
  | (.ok _, d) => .ok d
  | (.error f, _) => .error f

def pathOf (place : List Bytes) : Bytes := Path.slash :: Bytes.joinWith [Path.slash] place

/-- The paths and contents of all files; those below the working directory count from it. -/
def files (d : Disk) : List (Bytes × Bytes) :=
  d.nodes.filterMap fun (names, e) =>
    match e with
    | .file content =>
      let path :=
        if d.base.isPrefixOf names then Bytes.joinWith [Path.slash] (names.drop d.base.length)
        else pathOf names
      some (path, content)
    | .directory => none

/-- The files of a disk that another one has not, or has with another content. -/
def filesBeyond (d e : Disk) : List (Bytes × Bytes) := d.files.filter (!e.files.contains ·)

/-- The paths of the files that a disk has and another one has not. -/
def pathsBeyond (d e : Disk) : List Bytes :=
  (d.files.map (·.1)).filter fun p => !(e.files.map (·.1)).contains p

end Disk

end Flowsmith
