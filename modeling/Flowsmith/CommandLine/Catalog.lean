import Flowsmith.CommandLine.Program
import Flowsmith.Help.Guides
import Flowsmith.Settings.Load

/-!
# The commands

What can be asked of the program `wfmigrate`: its commands with their flags and texts.

* `Catalog.globals` : the flags that all commands share;
* `Catalog.commands` : the commands;
* `Catalog.usage` : the usage text of a command;
* `Catalog.program` : the program.
-/

namespace Flowsmith.Catalog

def paragraph (lines : List String) : Bytes :=
  Bytes.joinWith [Bytes.newline] (lines.map Bytes.ofString)

/-! ## Flags -/

def globals : List Flag :=
  [{ name := "verbose", letter? := some 'v'.toUInt8, kind := .count,
     usage := "Increase verbosity (-v INFO, -vv DEBUG, -vvv TRACE)" },
   { name := "dry-run", kind := .truth, usage := "Preview changes without writing any file" },
   { name := "config", kind := .text [], usage := "Configuration file applied over the defaults" },
   { name := "format", kind := .text "auto",
     usage := "Report format (auto, term, text, json, yaml, toml)" },
   { name := "strict", kind := .truth,
     usage := "Fail on missing conditions and dropped accessor bodies" }]

def registryFlag : Flag :=
  { name := "workflow-config", kind := .text [],
    usage := "Workflow configuration file with registered workflow names" }

/-- The flag that asks for a file to be written. -/
def writeFlag (usage : Bytes) : Flag :=
  { name := "write", letter? := some 'w'.toUInt8, kind := .truth, usage := usage }

/-! ## Commands -/

/-- Migrates a workflow project and its activity project. -/
def migrateCommand : Command where
  use := "migrate <workflow-project-dir> [<workflow-config-file>] [<activity-project-dir>]"
  short := "Migrate a workflow project and its activity project"
  long := paragraph
    ["Migrate a workflow project and then its activity project.",
     "",
     "The activity project defaults to the workflow project directory. The optional",
     "workflow configuration file maps workflow classes to their registered names,",
     "which become the names of the generated flow classes."]
  example_ := paragraph
    ["  wfmigrate migrate ./Commerce.Workflow",
     "  wfmigrate migrate ./Commerce.Workflow ./Site/ecf.workflow.config ./Commerce.Activities",
     "  wfmigrate migrate ./Commerce.Workflow --dry-run --format json"]
  group := "migrate"
  arity := .between 1 3

def workflowsCommand : Command where
  use := "workflows <workflow-project-dir>"
  short := "Convert the workflows of a project into flow classes"
  long := paragraph
    ["Convert every workflow of a project into a flow class.",
     "",
     "For each *.xoml.cs code-behind the definition markup is transpiled into a",
     "fluent expression and the code-behind members are carried over. The generated",
     "class is written next to the code-behind and added to the project, then the",
     "legacy workflow files and references are removed."]
  group := "migrate"
  arity := .exactly 1
  flags := [registryFlag]

def activitiesCommand : Command where
  use := "activities <activity-project-dir>"
  short := "Rewrite the activities of a project"
  long := paragraph
    ["Rewrite the activities of a project for the activity flow engine.",
     "",
     "Designer files are removed, activity sources lose their legacy workflow usings",
     "and validation attributes, gain the engine usings and have their class",
     "modifiers normalized. Legacy references and imports are removed from the",
     "project file."]
  group := "migrate"
  arity := .exactly 1

/-- Prints the flow expression of a definition. -/
def exprCommand : Command where
  use := "expr <file.xoml>"
  short := "Print the flow expression of a definition file"
  long := paragraph
    ["Print the fluent expression of a workflow definition file without touching",
     "the project. Warnings are written to stderr."]
  group := "inspect"
  arity := .exactly 1

/-- Prints or writes the flow class of a workflow. -/
def convertCommand : Command where
  use := "convert <file.xoml.cs>"
  short := "Print the flow class generated for a workflow"
  long := paragraph
    ["Print the flow class generated for one workflow code-behind file. The",
     "definition markup is looked up next to it. With --write the class is saved as",
     "<name>.cs in the code-behind's directory instead."]
  group := "inspect"
  arity := .exactly 1
  flags := [writeFlag "Write the result to a file instead of stdout", registryFlag]

/-- Prints or writes the sample settings file. -/
def genconfigCommand : Command where
  use := "genconfig"
  short := "Output the default configuration"
  long := paragraph
    ["Output the default configuration with every value commented out.",
     "",
     "With -w the configuration is written to ./.wfmigrate.toml, which is picked up",
     "by later runs from that directory."]
  group := "misc"
  arity := .noArguments
  flags := 
    [writeFlag (("Write config to ./" : Bytes) ++ Settings.localName)]

def topicsCommand : Command where
  use := "topics [topic]"
  short := "Display available documentation topics"
  long := "Display a list of all available help topics, or the topic given as argument."
  group := "misc"
  arity := .atMost 1

def versionCommand : Command where
  use := "version"
  short := "Print version information"
  group := "misc"
  arity := .noArguments

def completionCommand : Command where
  use := "completion [bash|zsh|fish|powershell]"
  short := "Generate shell completion script"
  long := paragraph
    ["To load completions:",
     "",
     "Bash:",
     "  $ source <(wfmigrate completion bash)",
     "  # To load completions for each session, execute once:",
     "  # Linux:",
     "  $ wfmigrate completion bash > /etc/bash_completion.d/wfmigrate",
     "  # macOS:",
     "  $ wfmigrate completion bash > /usr/local/etc/bash_completion.d/wfmigrate",
     "",
     "Zsh:",
     "  # If shell completion is not already enabled in your environment,",
     "  # you will need to enable it.  You can execute the following once:",
     "  $ echo \"autoload -U compinit; compinit\" >> ~/.zshrc",
     "  # To load completions for each session, execute once:",
     "  $ wfmigrate completion zsh > \"$\x7bfpath[1]\x7d/_wfmigrate\"",
     "",
     "Fish:",
     "  $ wfmigrate completion fish | source",
     "  # To load completions for each session, execute once:",
     "  $ wfmigrate completion fish > ~/.config/fish/completions/wfmigrate.fish",
     "",
     "PowerShell:",
     "  PS> wfmigrate completion powershell | Out-String | Invoke-Expression"]
  group := "misc"
  arity := .oneOf ["bash", "zsh", "fish", "powershell"]
  mentionsFlags := false

def commands : List Command :=
  [activitiesCommand, completionCommand, convertCommand, exprCommand, genconfigCommand,
   migrateCommand, topicsCommand, versionCommand, workflowsCommand]

/-! ## The program -/

def root : Command where
  use := "wfmigrate"
  short := "Migrate workflow projects to activity flows"
  long := paragraph
    ["wfmigrate converts Windows Workflow Foundation projects into activity flow",
     "classes. Every workflow definition (.xoml) and its code-behind become one flow",
     "class whose Configure method chains the workflow's steps and conditions, and",
     "the legacy workflow files, references and imports are removed from the",
     "project files.",
     "",
     "Run it on a copy or under version control, or preview with --dry-run."]

def block (heading body : Bytes) : Bytes :=
  if body.isEmpty then [] else ("\n\n" : Bytes) ++ heading ++ ("\n" : Bytes) ++ body

/-- The commands of a group under its title, with their short texts in a column. -/
def groupBlock (title : Bytes) (entries : List (Bytes × Bytes)) : Bytes :=
  ("\n\n" : Bytes) ++ title ++ entries.flatMap fun (name, short) =>
    ("\n  " : Bytes) ++ name ++ Bytes.spaces (11 - name.length) ++ (" " : Bytes) ++ short

def usage (u : Usage) : Bytes :=
  ("USAGE:\n  " : Bytes) ++ u.useLine
    ++ (if u.hasCommands then ("\n  " : Bytes) ++ u.path ++ (" [command]" : Bytes) else [])
    ++ block "EXAMPLES:" u.example_
    ++ u.groups.flatMap (fun g => groupBlock g.1 g.2)
    ++ block "FLAGS:" (Flag.usages u.own)
    ++ block "GLOBAL FLAGS:" (Flag.usages u.inherited)
    ++ (if u.hasCommands then
          ("\n\nUse \"" : Bytes) ++ u.path
            ++ (" help [command]\" for more information about a command.\nUse \"" : Bytes) ++ u.path
            ++ (" help topics\" for guides on conditions, configuration and options." : Bytes)
        else [])

def version : Bytes := "dev"

def program : Program where
  root := root
  commands := commands
  globals := globals
  groups := [("migrate", "MIGRATION:"), ("inspect", "INSPECTION:"), ("misc", "MISC:")]
  helpGroup := "misc"
  version? := some version
  topics := Guides.topics
  usage := usage

end Flowsmith.Catalog
