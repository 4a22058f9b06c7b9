import Flowsmith.Text.Bytes

/-!
# Paths

Paths are byte strings whose parts are divided by slashes. They are treated by their text alone, so
no file is looked at.

* `Path.clean` : the shortest path with the same meaning;
* `Path.join`, `Path.directory`, `Path.base`, `Path.extension` : making and taking apart;
* `Path.relative?` : one path as seen from another.
-/

namespace Flowsmith.Path

abbrev slash : UInt8 := 0x2F

def isAbsolute (p : Bytes) : Bool := p.head? == some slash

/-- The part that means the directory itself. -/
def here : Bytes := "."

def above : Bytes := ".."

/-- Adds a part to the parts before it, which are in reverse. -/
def push (rooted : Bool) (before : List Bytes) (part : Bytes) : List Bytes :=
  if part.isEmpty || part == here then before
  else if part == above then
    match before with
    | [] => if rooted then [] else [above]
    | last :: rest => if last == above then above :: before else rest
  else part :: before

/-- The parts of a path without those that cancel out. -/
def parts (p : Bytes) : List Bytes :=
  ((Bytes.splitOn slash p).foldl (push (isAbsolute p)) []).reverse

def clean (p : Bytes) : Bytes :=
  let body := Bytes.joinWith [slash] (parts p)
  if isAbsolute p then slash :: body
  else if body.isEmpty then here
  else body

def join (a b : Bytes) : Bytes :=
  if a.isEmpty then (if b.isEmpty then [] else clean b) else clean (a ++ [slash] ++ b)

def directory (p : Bytes) : Bytes := clean (p.take (Bytes.afterLast p slash))

def base (p : Bytes) : Bytes :=
  if p.isEmpty then here
  else
    let trimmed := (p.reverse.dropWhile (· == slash)).reverse
    if trimmed.isEmpty then [slash] else trimmed.drop (Bytes.afterLast trimmed slash)

/-- The last part of a path from its last point on, empty when it has none. -/
def extension (p : Bytes) : Bytes :=
  let last := p.drop (Bytes.afterLast p slash)
  if last.contains '.'.toUInt8 then last.drop (Bytes.afterLast last '.'.toUInt8 - 1) else []

/-- The text without `sfx` at its end. -/
def trimEnd (s sfx : Bytes) : Bytes := (Bytes.dropEnd? s sfx).getD s

def dropCommon : List Bytes → List Bytes → List Bytes × List Bytes
  | a :: as, b :: bs => if a == b then dropCommon as bs else (a :: as, b :: bs)
  | as, bs => (as, bs)

/-- The parts of a clean path; the root has none. -/
def steps (p : Bytes) : List Bytes :=
  if isAbsolute p then (if p.length = 1 then [] else Bytes.splitOn slash (p.drop 1))
  else Bytes.splitOn slash p

/-- `target` as seen from `root`, when its text can tell. -/
def relative? (root target : Bytes) : Option Bytes :=
  let r := clean root
  let t := clean target
  if r == t then some here
  else if isAbsolute r != isAbsolute t then none
  else
    match dropCommon (if r == here then [] else steps r) (steps t) with
    | ([], ts) => some (Bytes.joinWith [slash] ts)
    | (b :: bs, ts) =>
      if b == above && !ts.isEmpty then none
      else some (clean (Bytes.joinWith [slash] ((b :: bs).map (fun _ => above) ++ ts)))

end Flowsmith.Path
