import Flowsmith.Files.Store
import Flowsmith.Settings.Decode
import Flowsmith.Text.Case
import Flowsmith.Toml.Read

/-!
# Loading settings

Settings are laid in layers over the defaults: the file of the user, the file of the working
directory, a file that is asked for, what the caller says, and the environment. Only the file that
is asked for must be there; a file that is there must be well-formed.

* `Settings.Sources` : where layers come from;
* `Settings.environmentLayer` : the layer of the environment;
* `Settings.load` : the settings.
-/

namespace Flowsmith.Settings

/-- Where layers come from. -/
structure Sources where
  /-- The file of the user, none when it is to be ignored. -/
  userFile? : Option Bytes := none
  /-- The directory whose file is read; the working directory when it is empty. -/
  workDir : Bytes := []
  /-- A file that must be there, when it is not empty. -/
  file : Bytes := []
  /-- What the caller says, with dotted keys. -/
  overrides : Table := []
  environment : List (Bytes × Bytes) := []

/-- The name of the settings file of a directory. -/
def localName : Bytes := ".wfmigrate.toml"

/-! ## The environment -/

def variableStart : Bytes := "WFMIGRATE_"

/-- The key that a variable sets: without its beginning, in lower case, with points for double
underscores. -/
def variableKey? (name : Bytes) : Option Bytes :=
  match Bytes.dropStart? name variableStart with
  | some rest =>
    let key := Bytes.replaceAll (Bytes.lower rest) "__" "."
    if key.isEmpty then none else some key
  | none => none

def environmentLayer (environment : List (Bytes × Bytes)) : Table :=
  let flat := environment.foldl
    (fun (t : Table) v => match variableKey? v.1 with
      | some key => t.set key (.text v.2)
      | none => t) []
  flat.expand

/-! ## Files -/

variable {σ : Type} [FileStore σ]

def fileLayer (path : Bytes) : FileM σ Table :=
  let blame := fun f : Fault =>
    f.wrap .configParse (("failed to load config from " : Bytes) ++ path) [("path", .text path)]
  tryCatch (do
    match Toml.read? (← FileStore.read path) with
    | some t => return t
    | none => throw (.plain "malformed settings file")) fun f => throw (blame f)

def isThere (path : Bytes) : FileM σ Bool :=
  tryCatch (do let _ ← FileStore.stat path; return true) fun _ => return false

def optionalLayers : List Bytes → FileM σ (List Table)
  | [] => pure []
  | path :: paths => do
    if ← isThere path then
      let layer ← fileLayer path
      return layer :: (← optionalLayers paths)
    else optionalLayers paths

def requiredLayer (path : Bytes) : FileM σ Table := do
  let _ ← tryCatch (FileStore.stat path) fun f =>
    throw (f.wrap .configLoad (("config file " : Bytes) ++ path ++ (" not accessible" : Bytes))
      [("path", .text path)])
  fileLayer path

def load (s : Sources) : FileM σ Settings := do
  let dir := if s.workDir.isEmpty then Path.here else s.workDir
  let found ← optionalLayers (s.userFile?.toList ++ [Path.join dir localName])
  let asked ← if s.file.isEmpty then pure [] else List.singleton <$> requiredLayer s.file
  MonadExcept.ofExcept
    (ofLayers (found ++ asked ++ [s.overrides.expand, environmentLayer s.environment]))

end Flowsmith.Settings
