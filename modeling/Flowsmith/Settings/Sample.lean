import Flowsmith.Settings.Load
import Flowsmith.Text.Blank

/-!
# The sample settings file

A settings file that says what holds anyway, with a comment for every key that needs one. With its
values commented out it is what users begin their own files with.

* `Settings.sample` : the file;
* `Settings.commentOut` : a settings file without its values;
* `Settings.starter` : the sample without its values.
-/

namespace Flowsmith.Settings

def sampleLines : List String :=
  ["# wfmigrate default configuration.",
   "# Every value here can be overridden from $XDG_CONFIG_HOME/wfmigrate/config.toml,",
   "# ./.wfmigrate.toml, --config FILE or WFMIGRATE_<SECTION>__<KEY> variables.",
   "",
   "[flow]",
   "# Receiver identifier the generated chain starts from.",
   "receiver = \"activityFlow\"",
   "# Depth of the first emitted call; the chain sits inside a method body.",
   "base_depth = 4",
   "indent_width = 4",
   "# Root and transparent sequence containers.",
   "sequence_elements = [\"SequentialWorkflowActivity\", \"SequenceActivity\"]",
   "conditional_element = \"IfElseActivity\"",
   "branch_element = \"IfElseBranchActivity\"",
   "condition_elements = [\"IfElseBranchActivity.Condition\", \"CodeCondition\"]",
   "condition_attribute = \"Condition\"",
   "# Steps with these local names are skipped together with their children.",
   "fault_handlers = [\"FaultHandlersActivity\"]",
   "# Fail instead of emitting a degenerate `.If(() => )` when a condition is missing.",
   "strict_conditions = false",
   "",
   "[types]",
   "flow_base = \"Mediachase.Commerce.Engine.ActivityFlow\"",
   "flow_runner = \"Mediachase.Commerce.Engine.ActivityFlowRunner\"",
   "configuration_attribute = \"Mediachase.Commerce.Engine.ActivityFlowConfigurationAttribute\"",
   "context_property_attribute = \"Mediachase.Commerce.Engine.ActivityFlowContextPropertyAttribute\"",
   "conditional_event_args = \"Mediachase.Commerce.WorkflowCompatibility.ConditionalEventArgs\"",
   "execution_context = \"ActivityExecutionContext\"",
   "",
   "[legacy]",
   "# Names with this (case-sensitive) prefix get LegacyMode = true.",
   "prefix = \"Legacy\"",
   "default_namespace = \"Mediachase.Commerce.Workflow\"",
   "",
   "[migration]",
   "# Fail when a property accessor with a body would be dropped.",
   "strict_accessors = false",
   "",
   "[activities]",
   "file_pattern = \"*Activity*.cs\"",
   "designer_pattern = \"*Activity*.Designer.cs\"",
   "usings = [\"Mediachase.Commerce.Engine\", \"Mediachase.Commerce.WorkflowCompatibility\"]",
   "",
   "[project]",
   "workflow_targets = '$(MSBuildToolsPath)\\Workflow.Targets'",
   "legacy_references = [\"System.Workflow.Activities\", \"System.Workflow.ComponentModel\", \"System.Workflow.Runtime\"]",
   "assembly_info = \"AssemblyInfo.cs\"",
   "",
   "# Well-known legacy workflow class names and their canonical flow names.",
   "[names]",
   "CartCheckoutWorkflow = \"CartCheckout\"",
   "LegacyCartPrepareWorkflow = \"CartPrepare\"",
   "CartPrepareWorkflow = \"CartPrepare\"",
   "LegacyCartValidateWorkflow = \"CartValidate\"",
   "CartValidateWorkflow = \"CartValidate\"",
   "CheckAndReserveInstorePickupWorkflow = \"CheckAndReserveInstorePickup\"",
   "LegacyPOCalculateTotalsWorkflow = \"PurchaseOrderCalculateTotals\"",
   "POCalculateTotalsWorkflow = \"PurchaseOrderCalculateTotals\"",
   "POCompleteShipmentWorkflow = \"PurchaseOrderCompleteShipment\"",
   "LegacyPORecalculateWorkflow = \"PurchaseOrderRecalculate\"",
   "PORecalculateWorkflow = \"PurchaseOrderRecalculate\"",
   "POSaveChangesWorkflow = \"PurchaseOrderSaveChanges\"",
   "POSplitShipmentsWorkflow = \"PurchaseOrderSplitShipments\"",
   "ReturnFormCompleteWorkflow = \"ReturnFormComplete\"",
   "ReturnFormRecalculateWorkflow = \"ReturnFormRecalculate\"",
   ""]

def sample : Bytes := Bytes.joinWith [Bytes.newline] (sampleLines.map Bytes.ofString)

/-- A line of a settings file as a comment, unless it is blank, a comment or a heading. -/
def commentLine (line : Bytes) : Bytes :=
  let text := Bytes.trim line
  let isHeading := text.head? == some '['.toUInt8 && text.getLast? == some ']'.toUInt8
  if text.isEmpty || text.head? == some '#'.toUInt8 || isHeading then line
  else ("# " : Bytes) ++ line

/-- A settings file with its values commented out. -/
def commentOut (content : Bytes) : Bytes :=
  Bytes.joinWith [Bytes.newline] ((Bytes.lines content).map commentLine)

def starter : Bytes := commentOut sample

end Flowsmith.Settings
