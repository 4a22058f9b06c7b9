import Flowsmith.Settings.Value

/-!
# Settings

What a migration can be told: how flows are read and written, which type names the generated code
uses, which files are activities, what is removed from a project. `Settings.default` is what holds
when nothing is said.
-/

namespace Flowsmith

namespace Settings

/-- How definitions are read and how flow expressions are written. -/
structure Flow where
  receiver : Bytes := []
  baseDepth : Int := 0
  indentWidth : Int := 0
  sequenceElements : List Bytes := []
  conditionalElement : Bytes := []
  branchElement : Bytes := []
  conditionElements : List Bytes := []
  conditionAttribute : Bytes := []
  faultHandlers : List Bytes := []
  strictConditions : Bool := false
  deriving DecidableEq, Repr

/-- The type names that generated code uses. -/
structure Types where
  flowBase : Bytes := []
  flowRunner : Bytes := []
  configurationAttribute : Bytes := []
  contextPropertyAttribute : Bytes := []
  conditionalEventArgs : Bytes := []
  executionContext : Bytes := []
  deriving DecidableEq, Repr

namespace Types

/-- The type of condition arguments without its namespace. -/
def conditionalEventArgsName (t : Types) : Bytes :=
  t.conditionalEventArgs.drop (Bytes.afterLast t.conditionalEventArgs '.'.toUInt8)

end Types

/-- How legacy workflows are named. -/
structure Legacy where
  start : Bytes := []
  defaultNamespace : Bytes := []
  deriving DecidableEq, Repr

/-- Which files of an activity project are activities, and what they import. -/
structure Activities where
  filePattern : Bytes := []
  designerPattern : Bytes := []
  usings : List Bytes := []
  deriving DecidableEq, Repr

structure Project where
  workflowTargets : Bytes := []
  legacyReferences : List Bytes := []
  assemblyInfo : Bytes := []
  deriving DecidableEq, Repr

end Settings

structure Settings where
  flow : Settings.Flow := {}
  types : Settings.Types := {}
  legacy : Settings.Legacy := {}
  /-- Fail when the body of an accessor would be dropped. -/
  strictAccessors : Bool := false
  activities : Settings.Activities := {}
  project : Settings.Project := {}
  /-- The flow names of well-known workflow classes. -/
  names : List (Bytes × Bytes) := []
  deriving DecidableEq, Repr

namespace Settings

def default : Settings where
  flow :=
    { receiver := "activityFlow", baseDepth := 4, indentWidth := 4,
      sequenceElements := ["SequentialWorkflowActivity", "SequenceActivity"],
      conditionalElement := "IfElseActivity", branchElement := "IfElseBranchActivity",
      conditionElements := ["IfElseBranchActivity.Condition", "CodeCondition"],
      conditionAttribute := "Condition", faultHandlers := ["FaultHandlersActivity"],
      strictConditions := false }
  types :=
    { flowBase := "Mediachase.Commerce.Engine.ActivityFlow",
      flowRunner := "Mediachase.Commerce.Engine.ActivityFlowRunner",
      configurationAttribute := "Mediachase.Commerce.Engine.ActivityFlowConfigurationAttribute",
      contextPropertyAttribute := "Mediachase.Commerce.Engine.ActivityFlowContextPropertyAttribute",
      conditionalEventArgs := "Mediachase.Commerce.WorkflowCompatibility.ConditionalEventArgs",
      executionContext := "ActivityExecutionContext" }
  legacy := { start := "Legacy", defaultNamespace := "Mediachase.Commerce.Workflow" }
  strictAccessors := false
  activities :=
    { filePattern := "*Activity*.cs", designerPattern := "*Activity*.Designer.cs",
      usings := ["Mediachase.Commerce.Engine", "Mediachase.Commerce.WorkflowCompatibility"] }
  project :=
    { workflowTargets := "$(MSBuildToolsPath)\\Workflow.Targets",
      legacyReferences :=
        ["System.Workflow.Activities", "System.Workflow.ComponentModel", "System.Workflow.Runtime"],
      assemblyInfo := "AssemblyInfo.cs" }
  names :=
    [("CartCheckoutWorkflow", "CartCheckout"), ("LegacyCartPrepareWorkflow", "CartPrepare"),
     ("CartPrepareWorkflow", "CartPrepare"), ("LegacyCartValidateWorkflow", "CartValidate"),
     ("CartValidateWorkflow", "CartValidate"),
     ("CheckAndReserveInstorePickupWorkflow", "CheckAndReserveInstorePickup"),
     ("LegacyPOCalculateTotalsWorkflow", "PurchaseOrderCalculateTotals"),
     ("POCalculateTotalsWorkflow", "PurchaseOrderCalculateTotals"),
     ("POCompleteShipmentWorkflow", "PurchaseOrderCompleteShipment"),
     ("LegacyPORecalculateWorkflow", "PurchaseOrderRecalculate"),
     ("PORecalculateWorkflow", "PurchaseOrderRecalculate"),
     ("POSaveChangesWorkflow", "PurchaseOrderSaveChanges"),
     ("POSplitShipmentsWorkflow", "PurchaseOrderSplitShipments"),
     ("ReturnFormCompleteWorkflow", "ReturnFormComplete"),
     ("ReturnFormRecalculateWorkflow", "ReturnFormRecalculate")]

end Settings

end Flowsmith
