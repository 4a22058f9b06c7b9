import Flowsmith.Files.Store

/-!
# Dry runs

An overlay over a store records what is written and removed and leaves the store as it is. What was
written can be read back under the same name, and what was removed is missing under the same name.
Files that were only written are not listed.

* `Overlay` : a store with what was recorded;
* `Overlay.recordWrite`, `Overlay.recordRemove` : what is recorded;
* `Overlay.read`, `Overlay.stat`, `Overlay.list` : what is seen through it.
-/

namespace Flowsmith

inductive ChangeKind where
  | write
  | remove
  | mkdir
  deriving DecidableEq, Repr

namespace ChangeKind

def name : ChangeKind → String
  | write => "write"
  | remove => "remove"
  | mkdir => "mkdir"

end ChangeKind

/-- A change that was recorded and not made. -/
structure Change where
  kind : ChangeKind
  path : Bytes
  deriving DecidableEq, Repr

/-- A store with changes that are recorded and not made. -/
structure Overlay (σ : Type) where
  base : σ
  changes : List Change := []
  written : List (Bytes × Bytes) := []
  removed : List Bytes := []

namespace Overlay

variable {σ : Type}

def below {α : Type} (f : FileM σ α) : FileM (Overlay σ) α := do
  let o ← get
  let (result, base) := f.run o.base
  set { o with base := base }
  match result with
  | .ok a => return a
  | .error e => throw e

def record (o : Overlay σ) (kind : ChangeKind) (path : Bytes) : Overlay σ :=
  { o with changes := o.changes ++ [⟨kind, path⟩] }

def content? (o : Overlay σ) (name : Bytes) : Option Bytes :=
  (o.written.find? (·.1 == name)).map (·.2)

def recordWrite (o : Overlay σ) (name content : Bytes) : Overlay σ :=
  let o := o.record .write name
  { o with
    written := (name, content) :: o.written.filter (·.1 != name)
    removed := o.removed.filter (· != name) }

def recordRemove (o : Overlay σ) (name : Bytes) : Overlay σ :=
  let o := o.record .remove name
  { o with
    written := o.written.filter (·.1 != name)
    removed := name :: o.removed }

variable [FileStore σ]

def stat (name : Bytes) : FileM (Overlay σ) FileInfo := do
  let o ← get
  if o.removed.contains name then throw (Files.pathFault "stat" name "file does not exist")
  match o.content? name with
  | some content => return ⟨Path.base name, content.length, false⟩
  | none => below (FileStore.stat name)

def read (name : Bytes) : FileM (Overlay σ) Bytes := do
  let o ← get
  if o.removed.contains name then throw (Files.pathFault "open" name "file does not exist")
  match o.content? name with
  | some content => return content
  | none => below (FileStore.read name)

/-- Lists a directory of the store below, without what was removed. -/
def list (name : Bytes) : FileM (Overlay σ) (List DirEntry) := do
  let entries ← below (FileStore.list name)
  let o ← get
  return entries.filter fun e => !o.removed.contains (Path.join name e.name)

instance : FileStore (Overlay σ) where
  stat := stat
  read := read
  write name content := modify (·.recordWrite name content)
  remove name := modify (·.recordRemove name)
  makeDirs path := modify (·.record .mkdir path)
  list := list
  nesting o := FileStore.nesting o.base

end Overlay

end Flowsmith
