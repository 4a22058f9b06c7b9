import Flowsmith.Definition.Read
import Flowsmith.Text.Power

/-!
# Flow expressions

A definition is lowered to one expression: a chain of calls on a receiver, a line for each step and
for each mark of a conditional. The chain is written in one walk over the tree. The walk keeps the
depth of the next line, and whether the condition of the branch that was opened last is still to
come.

* `conditionName?` : the name of the method that decides a condition;
* `stepType` : the type of a step;
* `State` : what the walk keeps;
* `runNode`, `runBranch` : the walk;
* `expression` : the expression of a definition.
-/

namespace Flowsmith.Flow

open Definition (Node Kind Bindings)

/-! ## Names -/

mutual

/-- The trimmed value of the attribute on a condition, or else on the first condition below it that
has one. -/
def conditionName? (key : Bytes) : Node → Option Bytes
  | .mk kind tag space attrs children =>
    match (Node.mk kind tag space attrs children).attr? key with
    | some v => some v.trim
    | none => firstConditionName? key children

def firstConditionName? (key : Bytes) : List Node → Option Bytes
  | [] => none
  | n :: ns =>
    match (if n.kind = .condition then conditionName? key n else none) with
    | some v => some v
    | none => firstConditionName? key ns

end

/-- The type of a step: its local name, qualified with the code namespace of its prefix. -/
def stepType (b : Bindings) (n : Node) : Except Fault Bytes :=
  if n.space.isEmpty then .ok n.tag
  else match b.resolve n.space with
    | .ok ns => .ok (ns ++ ("." : Bytes) ++ n.tag)
    | .error f => .error (f.withDetail "element" (.text n.id))

/-! ## Options and state -/

/-- How an expression is written. -/
structure Options where
  receiver : Bytes
  baseDepth : Int
  indentWidth : Int
  conditionAttribute : Bytes
  /-- The local names of the steps that are left out. -/
  faultHandlers : List Bytes
  /-- Whether a missing condition is a fault. -/
  strict : Bool
  deriving DecidableEq, Repr

namespace Options

def ofSettings (s : Settings.Flow) : Options :=
  ⟨s.receiver, s.baseDepth, s.indentWidth, s.conditionAttribute, s.faultHandlers,
    s.strictConditions⟩

end Options

/-- What the walk keeps. -/
structure State where
  /-- The depth of the next line. -/
  depth : Int
  /-- Whether the condition of the branch that was opened last is still to come. -/
  pending : Bool := false
  out : Bytes := []
  warnings : List Bytes := []
  steps : Nat := 0
  conditionals : Nat := 0
  deriving DecidableEq, Repr

def widestIndent : Int := twoTo 48

/-- The spaces in front of a line. Depth and width are multiplied as 64-bit integers. -/
def padding? (width depth : Int) : Option Bytes :=
  let n := Int.bmod (depth * width) (twoTo 64)
  if 0 ≤ n ∧ n ≤ widestIndent then some (Bytes.spaces n.toNat) else none

namespace State

/-- Writes text on the current line. -/
def write (st : State) (s : Bytes) : State := { st with out := st.out ++ s }

/-- Begins a line at the current depth with a text. -/
def line (o : Options) (st : State) (s : Bytes) : Except Fault State :=
  match padding? o.indentWidth st.depth with
  | some pad => .ok (st.write ([Bytes.newline] ++ pad ++ s))
  | none => .error (.aborted .negativeIndent)

def indent (st : State) : State := { st with depth := st.depth + 1 }

/-- One level up; there is none above zero. -/
def dedent (st : State) : Except Fault State :=
  if st.depth = 0 then .error (.new .internal "indentation depth would become negative")
  else .ok { st with depth := st.depth - 1 }

end State

/-! ## Marks and faults -/

/-- The mark that opens a conditional; its condition follows. -/
def ifMark : Bytes := ".If(() => "

def elseMark : Bytes := ".Else()"

def endMark : Bytes := ".EndIf()"

def stepCall (type : Bytes) : Bytes := (".Do<" : Bytes) ++ type ++ (">()" : Bytes)

def misplaced (element message : Bytes) (details : List (Bytes × Detail) := []) : Fault :=
  .new .malformed message (("element", .text element) :: details)

def checkBranches (id : Bytes) (children : List Node) : Except Fault Unit :=
  match children.find? (·.kind ≠ .branch) with
  | some child =>
    .error (misplaced id
      (("conditional " : Bytes) ++ id ++ (" contains non-branch " : Bytes) ++ child.name))
  | none =>
    if children.length = 0 ∨ 2 < children.length then
      .error (misplaced id
        (("conditional " : Bytes) ++ id ++ (" has " : Bytes) ++ Bytes.natural children.length
          ++ (" branches, expected one or two" : Bytes))
        [("branches", .number children.length)])
    else .ok ()

/-! ## The walk -/

def runStep (o : Options) (b : Bindings) (n : Node) (st : State) : Except Fault State :=
  if o.faultHandlers.contains n.tag then .ok st
  else do
    let type ← stepType b n
    let st ← st.line o (stepCall type)
    return { st with steps := st.steps + 1 }

/-- Fills the place of the condition of the branch `id` with the name that a condition gives. -/
def runCondition (o : Options) (id : Bytes) (n : Node) (st : State) : Except Fault State :=
  if !st.pending then
    .error (misplaced id
      (("condition of branch " : Bytes) ++ id ++ (" is already set" : Bytes)))
  else
    let name := (conditionName? o.conditionAttribute n).getD []
    if name.isEmpty then .ok st
    else .ok { st.write (name ++ ("())" : Bytes)) with pending := false }

/-- Closes the place of a condition that did not come. -/
def closeMissing (o : Options) (id : Bytes) (st : State) : Except Fault State :=
  if !st.pending then .ok st
  else if o.strict then
    .error (.new .missingCondition
      (("branch " : Bytes) ++ id ++ (" has no condition" : Bytes)) [("element", .text id)])
  else
    let warning :=
      ("branch " : Bytes) ++ id ++ (" has no condition, emitted an empty .If(() => )" : Bytes)
    let st := st.write ")"
    .ok { st with pending := false, warnings := st.warnings ++ [warning] }

def openBranch (o : Options) (first : Bool) (st : State) : Except Fault State :=
  if first then do
    let st ← st.line o ifMark
    return { st with pending := true }.indent
  else do
    let st ← st.dedent
    let st ← st.line o elseMark
    return st.indent

mutual

def runNode (o : Options) (b : Bindings) : Node → State → Except Fault State
  | .mk kind tag space attrs children, st =>
    let n := Node.mk kind tag space attrs children
    match kind with
    | .sequence => runNodes o b children st
    | .conditional => do
      checkBranches n.id children
      let st ← runBranches o b true children
        { st with pending := false, conditionals := st.conditionals + 1 }
      let st ← st.dedent
      st.line o endMark
    | .step => runStep o b n st
    | .branch =>
      .error (misplaced n.id (("branch " : Bytes) ++ n.id ++ (" outside of a conditional" : Bytes)))
    | .condition =>
      .error (misplaced n.id (("condition " : Bytes) ++ n.id ++ (" outside of a branch" : Bytes)))
    | .unknown =>
      .error (.new .internal (("unhandled node kind " : Bytes) ++ Bytes.ofString kind.name))

def runNodes (o : Options) (b : Bindings) : List Node → State → Except Fault State
  | [], st => .ok st
  | n :: ns, st => do
    let st ← runNode o b n st
    runNodes o b ns st

/-- Writes the branches of a conditional; `first` says that the first of them decides it. -/
def runBranches (o : Options) (b : Bindings) (first : Bool) : List Node → State → Except Fault State
  | [], st => .ok st
  | n :: ns, st => do
    let st ← runBranch o b first n st
    runBranches o b false ns st

def runBranch (o : Options) (b : Bindings) (first : Bool) : Node → State → Except Fault State
  | .mk kind tag space attrs children, st => do
    let id := (Node.mk kind tag space attrs children).id
    let st ← openBranch o first st
    let st ← runItems o b first id children st
    if first then closeMissing o id st else .ok st

/-- Writes what is in the branch `id`. A condition fills the place of the condition; a conditional
that comes before it takes the place; anything else closes it. -/
def runItems (o : Options) (b : Bindings) (first : Bool) (id : Bytes) :
    List Node → State → Except Fault State
  | [], st => .ok st
  | n :: ns, st =>
    if n.kind = .condition then
      if !first then
        .error (misplaced id
          (("else branch " : Bytes) ++ id ++ (" carries a condition" : Bytes)))
      else do
        let st ← runCondition o id n st
        runItems o b first id ns st
    else do
      let st ← if first ∧ n.kind ≠ .conditional then closeMissing o id st else .ok st
      let st ← runNode o b n st
      runItems o b first id ns st

end

/-! ## Expressions -/

/-- An expression with what was seen on the way. -/
structure Expression where
  text : Bytes
  warnings : List Bytes
  steps : Nat
  conditionals : Nat
  deriving DecidableEq, Repr

def expression (o : Options) (doc : Definition.Document) : Except Fault Expression :=
  match doc.root? with
  | none => .error (.new .invalidInput "definition document is empty")
  | some root =>
    if root.kind ≠ .sequence then
      .error (.new .malformed (("root " : Bytes) ++ root.name ++ (" is not a sequence" : Bytes)))
    else do
      let st ← runNodes o doc.bindings root.children
        { depth := o.baseDepth, out := o.receiver }
      return ⟨st.out, st.warnings, st.steps, st.conditionals⟩

def ofMarkup (s : Settings.Flow) (markup : Bytes) : Except Fault Expression := do
  let doc ← Definition.read (.ofSettings s) markup
  expression (.ofSettings s) doc

end Flowsmith.Flow
