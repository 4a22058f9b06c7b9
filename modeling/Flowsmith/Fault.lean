import Flowsmith.Text.Bytes

/-!
# Faults

Why an operation failed, as a chain of notes. A note has a stable code, a message and named details;
it may be put in front of the fault that caused it.

* `Fault.code?`, `Fault.details?` : code and details of the first note of the chain;
* `Fault.carries` : whether some note of the chain has a code;
* `Fault.text` : the chain as one line of text; `Fault.brief` leaves out what the reader of an
  embedded format had to say;
* `Fault.cause?` : the chain without its first link.
-/

namespace Flowsmith

/-- The stable names of the kinds of faults. -/
inductive Code where
  | unknown
  | internal
  | invalidInput
  | notFound
  | configLoad
  | configParse
  | markupParse
  | malformed
  | missingCondition
  | namespaceLookup
  | noTypeDeclaration
  | droppedAccessor
  | fileAccess
  | fileWrite
  | projectEdit
  | named (name : Bytes)
  deriving DecidableEq, Repr

namespace Code

/-- The codes with a constructor of their own, with their names. -/
def table : List (Code × String) :=
  [(.unknown, "UNKNOWN"), (.internal, "INTERNAL"), (.invalidInput, "INVALID_INPUT"),
   (.notFound, "NOT_FOUND"), (.configLoad, "CONFIG_LOAD"), (.configParse, "CONFIG_PARSE"),
   (.markupParse, "MARKUP_PARSE"), (.malformed, "STRUCTURE"),
   (.missingCondition, "MISSING_CONDITION"), (.namespaceLookup, "NAMESPACE_LOOKUP"),
   (.noTypeDeclaration, "NO_TYPE_DECLARATION"), (.droppedAccessor, "DROPPED_ACCESSOR"),
   (.fileAccess, "FILE_ACCESS"), (.fileWrite, "FILE_WRITE"), (.projectEdit, "PROJECT_EDIT")]

def name : Code → Bytes
  | .named s => s
  | c => ((table.find? (·.1 == c)).map (·.2)).getD ""

def ofName (s : Bytes) : Code :=
  ((table.find? fun entry => Bytes.ofString entry.2 == s).map (·.1)).getD (.named s)

end Code

inductive Detail where
  | text (s : Bytes)
  | number (n : Int)
  | flag (b : Bool)
  | list (items : List Bytes)
  deriving DecidableEq, Repr

/-- One link of a chain: a code, a message, and details by name. -/
structure Notice where
  code : Code
  message : Bytes
  details : List (Bytes × Detail) := []
  deriving DecidableEq, Repr

namespace Notice

/-- The notice with a detail set; a detail of that name is replaced. -/
def withDetail (n : Notice) (key : Bytes) (value : Detail) : Notice :=
  { n with details := n.details.filter (·.1 != key) ++ [(key, value)] }

end Notice

/-- What ends a run at once, outside the reach of any fault handling. -/
inductive Abort where
  /-- A block has an opening brace and no token after it. -/
  | unclosedBlock
  /-- An indentation has a negative width. -/
  | negativeIndent
  /-- A store of files has lost its root. -/
  | missingRoot
  deriving DecidableEq, Repr

inductive Fault where
  /-- A message without a code. -/
  | plain (message : Bytes)
  /-- A notice that stands alone. -/
  | noted (notice : Notice)
  /-- A notice in front of its cause. -/
  | wrapped (notice : Notice) (cause : Fault)
  /-- A message without a code in front of its cause. -/
  | captioned (message : Bytes) (cause : Fault)
  /-- The run cannot go on. -/
  | aborted (reason : Abort)
  deriving DecidableEq, Repr

namespace Fault

def new (code : Code) (message : Bytes) (details : List (Bytes × Detail) := []) : Fault :=
  .noted ⟨code, message, details⟩

/-- A notice in front of a fault. An aborted run stays what it is. -/
def wrap (cause : Fault) (code : Code) (message : Bytes) (details : List (Bytes × Detail) := []) :
    Fault :=
  match cause with
  | .aborted reason => .aborted reason
  | cause => .wrapped ⟨code, message, details⟩ cause

def notice? : Fault → Option Notice
  | .plain _ => none
  | .noted n => some n
  | .wrapped n _ => some n
  | .captioned _ cause => cause.notice?
  | .aborted _ => none

def code? (f : Fault) : Option Code := f.notice?.map (·.code)

def details? (f : Fault) : Option (List (Bytes × Detail)) := f.notice?.map (·.details)

/-- The chain without its first link. -/
def cause? : Fault → Option Fault
  | .wrapped _ cause => some cause
  | .captioned _ cause => some cause
  | _ => none

def carries (code : Code) : Fault → Bool
  | .plain _ => false
  | .noted n => n.code == code
  | .wrapped n cause => n.code == code || cause.carries code
  | .captioned _ cause => cause.carries code
  | .aborted _ => false

/-- Sets a detail on the first notice of the chain; a chain without a notice is kept. -/
def withDetail (key : Bytes) (value : Detail) : Fault → Fault
  | .noted n => .noted (n.withDetail key value)
  | .wrapped n cause => .wrapped (n.withDetail key value) cause
  | .captioned m cause => .captioned m (withDetail key value cause)
  | f => f

/-- Whether the first link of the chain is a notice. -/
def isNotice : Fault → Bool
  | .noted _ => true
  | .wrapped _ _ => true
  | _ => false

def heading (n : Notice) : Bytes := ("[" : Bytes) ++ n.code.name ++ ("] " : Bytes) ++ n.message

def text : Fault → Bytes
  | .plain m => m
  | .noted n => heading n
  | .wrapped n cause => heading n ++ (": " : Bytes) ++ cause.text
  | .captioned m cause => m ++ (": " : Bytes) ++ cause.text
  | .aborted _ => "aborted"

/-- The codes whose cause is the report of a reader of an embedded format. -/
def hidesCause (code : Code) : Bool :=
  code == .markupParse || code == .projectEdit || code == .configParse

/-- The chain as one line, with `<cause>` for what follows the last notice when that notice blames
the reader of an embedded format. -/
def brief : Fault → Bytes
  | .wrapped n cause =>
    heading n ++ (": " : Bytes) ++
      (if cause.notice?.isNone && hidesCause n.code then ("<cause>" : Bytes) else cause.brief)
  | .captioned m cause => m ++ (": " : Bytes) ++ cause.brief
  | f => f.text

end Fault

end Flowsmith
