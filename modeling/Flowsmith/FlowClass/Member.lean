import Flowsmith.Settings.Model
import Flowsmith.Source.Scan

/-!
# Members of a flow class

What of a code-behind class is carried over into the flow class that replaces it: methods as they
stand, properties as automatic ones, and condition handlers as methods that return the condition's
value. All other members are skipped.

* `CarryOptions` : which methods are condition handlers, and whether a dropped accessor is a fault;
* `carry` : the members of a class, with the names of the skipped ones and with warnings.
-/

namespace Flowsmith.FlowClass

/-- A member of a flow class. -/
inductive Member where
  /-- A method with the text of its declaration, which started at a column. -/
  | method (name text : Bytes) (column : Nat)
  /-- An automatic property. `fixed` says that it is not virtual, `dropped` names the accessors
  whose bodies are lost. -/
  | property (name type visibility : Bytes) (fixed : Bool) (dropped : List Bytes)
  /-- A method that runs the statements of a condition handler on new arguments, which are held in a
  local variable, and returns their result. -/
  | callback (name visibility argument body : Bytes)
  deriving DecidableEq, Repr

namespace Member

def name : Member → Bytes
  | .method n _ _ => n
  | .property n _ _ _ _ => n
  | .callback n _ _ _ => n

end Member

/-- How members are classified. -/
structure CarryOptions where
  /-- The type of the second parameter of a condition handler, without its namespace. -/
  eventArgs : Bytes
  /-- Whether it is a fault to drop the body of an accessor. -/
  strict : Bool
  deriving DecidableEq, Repr

namespace CarryOptions

def ofSettings (s : Settings) : CarryOptions :=
  ⟨s.types.conditionalEventArgsName, s.strictAccessors⟩

end CarryOptions

/-- The members of a flow class, in the order of the source. -/
structure Carried where
  members : List Member := []
  /-- The names of the members that are not carried over. -/
  skipped : List Bytes := []
  warnings : List Bytes := []
  deriving DecidableEq, Repr

namespace Carried

def append (a b : Carried) : Carried :=
  ⟨a.members ++ b.members, a.skipped ++ b.skipped, a.warnings ++ b.warnings⟩

end Carried

/-- Whether a method's second parameter has the type of condition arguments. -/
def isConditionHandler (eventArgs : Bytes) (m : Source.Member) : Bool :=
  match m.params with
  | _ :: second :: _ =>
    second.type == eventArgs || Bytes.endsIn second.type (("." : Bytes) ++ eventArgs)
  | _ => false

def argumentName (m : Source.Member) : Bytes := ((m.params.drop 1).head?.map (·.name)).getD []

/-- The method that replaces a condition handler. -/
def callbackOf (m : Source.Member) : Member :=
  let visibility := if m.visibility.isEmpty then ("private" : Bytes) else m.visibility
  let body := match m.body with
    | .expression s => s ++ (";" : Bytes)
    | b => b.text
  .callback m.name visibility (argumentName m) body

def droppedAccessors (m : Source.Member) : List Bytes :=
  (m.accessors.filter (!·.auto)).map (·.keyword)

def propertyOf (m : Source.Member) : Member :=
  .property m.name m.type
    (if m.modifiers.contains "private" then "private" else "public")
    (!m.modifiers.contains "virtual") (droppedAccessors m)

def droppedWarning (name : Bytes) (dropped : List Bytes) : Bytes :=
  ("property " : Bytes) ++ name ++ (": dropped body of " : Bytes)
    ++ Bytes.joinWith " and " dropped ++ (" accessor" : Bytes)

def droppedFault (name : Bytes) (dropped : List Bytes) : Fault :=
  .new .droppedAccessor
    (("property " : Bytes) ++ name ++ (" has accessor bodies that would be dropped" : Bytes))
    [("property", .text name), ("accessors", .list dropped)]

def carryMember (o : CarryOptions) (m : Source.Member) : Except Fault Carried :=
  match m.shape with
  | .property _ =>
    let dropped := droppedAccessors m
    if dropped.isEmpty then .ok { members := [propertyOf m] }
    else if o.strict then .error (droppedFault m.name dropped)
    else .ok { members := [propertyOf m], warnings := [droppedWarning m.name dropped] }
  | .method _ _ =>
    if isConditionHandler o.eventArgs m then .ok { members := [callbackOf m] }
    else .ok { members := [.method m.name m.text m.column] }
  | _ => .ok { skipped := [m.name] }

def carryMembers (o : CarryOptions) : List Source.Member → Except Fault Carried
  | [] => .ok {}
  | m :: ms => do
    let first ← carryMember o m
    let rest ← carryMembers o ms
    return first.append rest

/-- The members of a class that a flow class keeps. -/
def carry (o : CarryOptions) (cls : Option Source.Class) : Except Fault Carried :=
  match cls with
  | none => .error (.new .noTypeDeclaration "code-behind source declares no class")
  | some c => carryMembers o c.members

/-- The members that the flow class of a code-behind source keeps. -/
def carrySource (o : CarryOptions) (src : Bytes) : Except Fault Carried := do
  carry o (← Source.outline src).class?

end Flowsmith.FlowClass
