import Flowsmith.CommandLine.Catalog
import Flowsmith.Migration.Run
import Flowsmith.Report.Format
import Flowsmith.Settings.Sample

/-!
# Running commands

What each command does to a store of files, and what it prints. A command that fails keeps what it
printed and wrote before.

* `Console` : the store with what was printed;
* `Console.perform` : the arguments of a command line on a store;
* `Execution` : what comes of it.
-/

namespace Flowsmith

structure Surroundings where
  environment : List (Bytes × Bytes) := []
  /-- The settings file of the user. -/
  userFile? : Option Bytes := none

/-- A store of files with what was printed. -/
structure Console (σ : Type) where
  files : σ
  out : Bytes := []
  err : Bytes := []

abbrev ConsoleM (σ : Type) : Type → Type := ExceptT Fault (StateM (Console σ))

/-- What comes of a command line. -/
structure Execution (σ : Type) where
  files : σ
  out : Bytes
  err : Bytes
  fault? : Option Fault

namespace Console

variable {σ : Type}

def print (text : Bytes) : ConsoleM σ Unit := modify fun c => { c with out := c.out ++ text }

def warn (warnings : List Bytes) : ConsoleM σ Unit :=
  modify fun c =>
    { c with
      err := c.err ++ warnings.flatMap fun w => ("warning: " : Bytes) ++ w ++ ("\n" : Bytes) }

def onFiles {α : Type} (f : FileM σ α) : ConsoleM σ α := do
  let c ← get
  let (result, files) := f.run c.files
  set { c with files := files }
  MonadExcept.ofExcept result

/-- An operation on the files whose fault gets a caption. -/
def onFilesAs {α : Type} (caption : Bytes) (f : FileM σ α) : ConsoleM σ α :=
  onFiles (tryCatch f fun e => throw (.captioned caption e))

/-! ## Flags that all commands share -/

/-- The values of the flags that all commands share. -/
structure Globals where
  dryRun : Bool
  file : Bytes
  format : Report.Format
  strict : Bool

def globals (values : FlagValues) : Except Fault Globals := do
  let format ← Report.Format.parse ((values.text? "format").getD "auto")
  return {
    dryRun := values.isOn "dry-run"
    file := (values.text? "config").getD []
    format := format
    strict := values.isOn "strict" }

/-- What a strict run says over all files. -/
def strictLayer : Settings.Table :=
  [("flow.strict_conditions", .flag true), ("migration.strict_accessors", .flag true)]

variable [FileStore σ]

/-- The flags that all commands share, and the settings that they lead to. -/
def prepare (s : Surroundings) (values : FlagValues) : ConsoleM σ (Globals × Settings) := do
  let g ← MonadExcept.ofExcept (globals values)
  let settings ← onFilesAs "failed to load configuration" (Settings.load
    { userFile? := s.userFile?
      file := g.file
      overrides := if g.strict then strictLayer else []
      environment := s.environment })
  return (g, settings)

/-! ## Commands -/

/-- Migrates projects and prints the report, also when the migration fails. -/
def migrate (s : Surroundings) (values : FlagValues) (command : Run.Command) (o : Run.Options) :
    ConsoleM σ Unit := do
  let (g, settings) ← prepare s values
  let c ← get
  let (report, fault?, files) :=
    Run.perform settings command { o with dryRun := g.dryRun } c.files
  set { c with files := files }
  print (report.render g.format)
  match fault? with
  | some f => throw f
  | none => pure ()

def expression (s : Surroundings) (values : FlagValues) (path : Bytes) : ConsoleM σ Unit := do
  let (_, settings) ← prepare s values
  let markup ← onFilesAs (("failed to read " : Bytes) ++ path) (FileStore.read path)
  let e ← MonadExcept.ofExcept (Flow.ofMarkup settings.flow markup)
  warn e.warnings
  print (e.text ++ ("\n" : Bytes))

/-- Writes a file unless the run is dry, and says so. -/
def save (dryRun : Bool) (path content : Bytes) : ConsoleM σ Unit := do
  if dryRun then print (("Would write " : Bytes) ++ path ++ ("\n" : Bytes))
  else
    onFilesAs (("failed to write " : Bytes) ++ path) (FileStore.write path content)
    print (("Wrote " : Bytes) ++ path ++ ("\n" : Bytes))

/-- Prints or writes the flow class of a workflow. -/
def convert (s : Surroundings) (values : FlagValues) (path : Bytes) : ConsoleM σ Unit := do
  let (g, settings) ← prepare s values
  let registryPath := (values.text? "workflow-config").getD []
  let registry ←
    if registryPath.isEmpty then pure none else some <$> onFiles (Registry.load registryPath)
  let w ← onFiles (Workflow.load settings registry path)
  let out ← MonadExcept.ofExcept (w.transpile settings)
  warn out.warnings
  if values.isOn "write" then
    save g.dryRun (Path.join w.dir (out.name ++ (".cs" : Bytes))) out.source
  else print out.source

def sampleSettings (values : FlagValues) : ConsoleM σ Unit := do
  if values.isOn "write" then
    let g ← MonadExcept.ofExcept (globals values)
    save g.dryRun Settings.localName Settings.starter
  else print Settings.starter

def versionLines : Bytes :=
  ("wfmigrate version " : Bytes) ++ Catalog.version
    ++ ("\n  commit: unknown\n  built:  unknown\n" : Bytes)

def call (s : Surroundings) (c : Call) : ConsoleM σ Unit :=
  let v := c.values
  let argument := fun i => (c.arguments[i]?).getD []
  match c.command? with
  | none => do
    print (Catalog.program.helpText true none)
    throw (.plain "no command specified")
  | some command =>
    if command == Catalog.migrateCommand then
      migrate s v .all
        { workflowDir := argument 0, registryPath := argument 1, activityDir := argument 2 }
    else if command == Catalog.workflowsCommand then
      migrate s v .workflows
        { workflowDir := argument 0, registryPath := (v.text? "workflow-config").getD [] }
    else if command == Catalog.activitiesCommand then
      migrate s v .activities { activityDir := argument 0 }
    else if command == Catalog.exprCommand then expression s v (argument 0)
    else if command == Catalog.convertCommand then convert s v (argument 0)
    else if command == Catalog.genconfigCommand then sampleSettings v
    else if command == Catalog.topicsCommand then
      print (Catalog.program.helpOn command.name
        (if c.arguments.isEmpty then ["topics"] else c.arguments))
    else if command == Catalog.versionCommand then print versionLines
    else throw (.plain "no completion script is available")

def answer (s : Surroundings) (arguments : List Bytes) : ConsoleM σ Unit :=
  match Catalog.program.answer arguments with
  | .shown text => print text
  | .rejected f => throw f
  | .call c => call s c

def perform (s : Surroundings) (arguments : List Bytes) (files : σ) : Execution σ :=
  let (result, c) := (answer s arguments).run { files := files }
  { files := c.files, out := c.out, err := c.err
    fault? := match result with
      | .ok _ => none
      | .error f => some f }

end Console

end Flowsmith
