import Flowsmith.CommandLine.Run
import Flowsmith.Files.Disk

/-!
# The program

Reads the files that a command line is about, does what it asks for, and writes what has changed.

* `Shell.snapshot` : the files that a command line can reach;
* `Shell.commit` : writes and removes files;
* `main` : the program.
-/

namespace Flowsmith.Shell

def toBytes (s : String) : Bytes := s.toUTF8.toList

def toText (b : Bytes) : String := (String.fromUTF8? (ByteArray.mk b.toArray)).getD ""

def environment : IO (List (Bytes × Bytes)) := do
  try
    let all ← IO.FS.readBinFile "/proc/self/environ"
    return (Bytes.splitOn 0 all.toList).filterMap fun v => Bytes.cut? v "="
  catch _ => return []

def userFile : IO (Option Bytes) := do
  let below := "/wfmigrate/config.toml"
  match ← IO.getEnv "XDG_CONFIG_HOME", ← IO.getEnv "HOME" with
  | some dir, _ => return some (toBytes (dir ++ below))
  | none, some home => return some (toBytes (home ++ "/.config" ++ below))
  | none, none => return none

/-- The extensions of files whose contents count. -/
def extensions : List Bytes := [".cs", ".xoml", ".csproj", ".config", ".toml"]

/-- The contents of a file, nothing when they do not count or cannot be read. -/
def contentOf (path : String) (named : Bool) : IO Bytes := do
  if named || extensions.contains (Path.extension (toBytes path)) then
    try return (← IO.FS.readBinFile path).toList
    catch _ => return []
  else return []

/-- A path with all that is below it: directories, and files with contents. -/
def reach (path : String) : IO (List Bytes × List (Bytes × Bytes)) := do
  let place := (← IO.currentDir) / path
  if ← place.isDir then
    let mut dirs := [toBytes path]
    let mut files := []
    for p in ← place.walkDir do
      if ← p.isDir then dirs := dirs ++ [toBytes p.toString]
      else files := files ++ [(toBytes p.toString, ← contentOf p.toString false)]
    return (dirs, files)
  else if ← place.pathExists then
    return ([], [(toBytes path, ← contentOf path true)])
  else return ([], [])

/-- The paths that arguments name; a file is looked for together with its neighbours. -/
def reachable (arguments : List Bytes) (user? : Option Bytes) : IO (List Bytes) := do
  let words := arguments.map fun a => ((Bytes.cut? a "=").map (·.2)).getD a
  let mut paths := user?.toList ++ [Settings.localName]
  for w in words do
    let place := (← IO.currentDir) / toText w
    if !w.isEmpty && (← place.pathExists) then
      paths := paths ++ (if ← place.isDir then [w] else [Path.directory w, w])
  return paths

def snapshot (arguments : List Bytes) (user? : Option Bytes) : IO (Except Fault Disk) := do
  let mut dirs := []
  let mut files := []
  for p in ← reachable arguments user? do
    let (ds, fs) ← reach (toText p)
    dirs := dirs ++ ds
    files := files ++ fs
  let base := Path.parts (toBytes (← IO.currentDir).toString)
  return Disk.ofFiles base dirs files

def commit (before after : Disk) : IO Unit := do
  for (path, content) in after.filesBeyond before do
    IO.FS.writeBinFile (toText path) (ByteArray.mk content.toArray)
  for path in before.pathsBeyond after do
    IO.FS.removeFile (toText path)

def complain (f : Fault) : IO Unit := do
  let err ← IO.getStderr
  err.putStrLn (" ERROR  " ++ toText f.text)

/-- Does what a command line asks for; the result is zero when nothing fails. -/
def run (arguments : List Bytes) : IO UInt32 := do
  let user? ← userFile
  match ← snapshot arguments user? with
  | .error f => do
    complain f
    return 1
  | .ok before =>
    let around : Surroundings := { environment := ← environment, userFile? := user? }
    let e := Console.perform around arguments before
    commit before e.files
    (← IO.getStdout).write (ByteArray.mk e.out.toArray)
    (← IO.getStderr).write (ByteArray.mk e.err.toArray)
    match e.fault? with
    | none => return 0
    | some f => do
      complain f
      return 1

end Flowsmith.Shell

def main (args : List String) : IO UInt32 :=
  Flowsmith.Shell.run (args.map Flowsmith.Shell.toBytes)
