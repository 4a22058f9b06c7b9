import Flowsmith.Help.Topic

/-!
# Guides

The help topics of the program.

* `Guides.files` : the texts by file name;
* `Guides.topics` : the topics.
-/

namespace Flowsmith.Guides

/-- How conditional activities are carried over. -/
def conditions : List String :=
  ["# Conditions",
   "",
   "An `IfElseActivity` with its branches becomes a chain of `If`, `Else` and",
   "`EndIf` calls:",
   "",
   "```",
   "activityFlow",
   "    .If(() => ShouldValidate())",
   "        .Do<ValidateLineItemsActivity>()",
   "    .Else()",
   "        .Do<SkipActivity>()",
   "    .EndIf();",
   "```",
   "",
   "The condition of the first branch must be a code condition. Its method name",
   "becomes the lambda body; the method itself is migrated into a callback that",
   "returns the `Result` of a local `ConditionalEventArgs`.",
   "",
   "A branch without a condition produces `.If(() => )` and a warning. Set",
   "`strict_conditions = true` in the `[flow]` section to turn this into an",
   "error. A condition on the second branch is always rejected, as is a",
   "conditional with no branch or more than two.",
   ""]

def configuration : List String :=
  ["# Configuration",
   "",
   "Settings are layered, later sources winning:",
   "",
   "1. built-in defaults (`wfmigrate genconfig` prints them)",
   "2. `$XDG_CONFIG_HOME/wfmigrate/config.toml`",
   "3. `.wfmigrate.toml` in the working directory",
   "4. the file given with `--config`",
   "5. environment variables such as `WFMIGRATE_FLOW__RECEIVER`",
   "",
   "The `[names]` table maps legacy workflow class names to flow names. Classes",
   "missing from the table keep their own name. A name starting with `Legacy`",
   "marks the generated flow with `LegacyMode = true`.",
   ""]

def migration : List String :=
  ["# Migrating a workflow project",
   "",
   "`wfmigrate migrate` converts a Windows Workflow Foundation project into",
   "activity flows in three steps:",
   "",
   "1. **workflows**: every `X.xoml` / `X.xoml.cs` pair becomes a single `X.cs`",
   "   class deriving from `ActivityFlow`. The markup turns into the body of",
   "   `Configure`, the code-behind members are carried over.",
   "2. **activities**: designer files are removed and every activity source is",
   "   rewritten to drop the `System.Workflow` dependencies.",
   "3. **project files**: the `.csproj` files lose the legacy references and the",
   "   workflow targets import, and gain the generated sources.",
   "",
   "Run with `--dry-run` first. Nothing is written and the report lists every",
   "file that would change.",
   "",
   "```",
   "wfmigrate migrate ./Workflow ./ecf.workflow.config ./Activities --dry-run",
   "```",
   "",
   "Each workflow can also be converted on its own:",
   "",
   "```",
   "wfmigrate expr CartValidateWorkflow.xoml",
   "wfmigrate convert CartValidateWorkflow.xoml.cs",
   "```",
   ""]

def dryRun : List String :=
  ["# --dry-run",
   "",
   "Runs every migration step against an in-memory overlay of the project. The",
   "report is produced as usual but no file is written, rewritten or removed.",
   ""]

def format : List String :=
  ["# --format",
   "",
   "Selects the report output:",
   "",
   "- `auto` (default): `term` on an interactive terminal, `text` otherwise",
   "- `term`: styled output with a summary table",
   "- `text`: plain lines, suitable for logs",
   "- `json`, `yaml`, `toml`: the report as a document",
   "",
   "`NO_COLOR` forces `text` when the format is `auto`.",
   ""]

def files : List (Bytes × Bytes) :=
  let text := fun lines : List String => Bytes.joinWith [Bytes.newline] (lines.map Bytes.ofString)
  [("conditions.md", text conditions),
   ("configuration.md", text configuration),
   ("migration.md", text migration),
   ("option-dry-run.md", text dryRun),
   ("option-format.md", text format)]

def topics : Topics := Topics.ofFiles [] files

end Flowsmith.Guides
