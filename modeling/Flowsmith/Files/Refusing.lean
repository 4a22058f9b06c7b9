import Flowsmith.Files.Store

/-!
# Stores that refuse

A store in front of another one that refuses to write or to remove under certain names, which are
compared as they are written.
-/

namespace Flowsmith

/-- A store with names under which writing or removing is refused, with messages. -/
structure Refusing (σ : Type) where
  base : σ
  writes : List (Bytes × Bytes) := []
  removals : List (Bytes × Bytes) := []

namespace Refusing

variable {σ : Type}

def behind {α : Type} (f : FileM σ α) : FileM (Refusing σ) α := do
  let r ← get
  let (result, base) := f.run r.base
  set { r with base := base }
  match result with
  | .ok a => return a
  | .error e => throw e

def unlessRefused (names : List (Bytes × Bytes)) (name : Bytes) (f : FileM σ Unit) :
    FileM (Refusing σ) Unit :=
  match names.find? (·.1 == name) with
  | some entry => throw (.plain entry.2)
  | none => behind f

variable [FileStore σ]

instance : FileStore (Refusing σ) where
  stat name := behind (FileStore.stat name)
  read name := behind (FileStore.read name)
  write name content := do unlessRefused (← get).writes name (FileStore.write name content)
  remove name := do unlessRefused (← get).removals name (FileStore.remove name)
  makeDirs name := behind (FileStore.makeDirs name)
  list name := behind (FileStore.list name)
  nesting r := FileStore.nesting r.base

end Refusing

end Flowsmith
