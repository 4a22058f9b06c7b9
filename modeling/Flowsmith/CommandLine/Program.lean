import Flowsmith.CommandLine.Flag
import Flowsmith.Help.Topic
import Flowsmith.Text.Blank
import Flowsmith.Text.Case

/-!
# Programs with commands

A program has commands, each with flags of its own, and flags that all commands share. Every program
has a command `help`, which explains commands and topics. What the arguments ask for is worked out
here; running a command is left to the caller.

* `Command`, `Program` : what can be asked for;
* `Program.find` : the command that arguments name;
* `Program.helpText` : the help text of a command;
* `Program.answer` : what arguments ask for.
-/

namespace Flowsmith

/-- Which arguments a command takes. -/
inductive Arity where
  | any
  | noArguments
  | exactly (n : Nat)
  | between (low high : Nat)
  | atMost (n : Nat)
  /-- One of a list of words. -/
  | oneOf (words : List Bytes)
  deriving DecidableEq, Repr

structure Command where
  /-- How the command is written; its name is the first word. -/
  use : Bytes
  short : Bytes := []
  long : Bytes := []
  example_ : Bytes := []
  /-- The group of the help text that lists the command. -/
  group : Bytes := []
  flags : List Flag := []
  arity : Arity := .any
  /-- Whether the line of use mentions flags. -/
  mentionsFlags : Bool := true
  deriving DecidableEq, Repr

namespace Command

def name (c : Command) : Bytes := c.use.takeWhile (· != 0x20)

end Command

/-- What a usage text can tell about a command. -/
structure Usage where
  useLine : Bytes
  path : Bytes
  example_ : Bytes
  /-- The groups of commands: titles, and names with short texts. -/
  groups : List (Bytes × List (Bytes × Bytes))
  hasCommands : Bool
  /-- The flags of the command itself. -/
  own : List Flag
  /-- The flags that the command takes from the program. -/
  inherited : List Flag

structure Program where
  root : Command
  /-- The commands in the order of their names, without `help`. -/
  commands : List Command
  /-- Whether the program itself takes arguments that name no command. -/
  takesArguments : Bool := false
  globals : List Flag := []
  /-- The groups of commands: names and titles. -/
  groups : List (Bytes × Bytes) := []
  helpGroup : Bytes := []
  /-- The version, when the program has a flag for it. -/
  version? : Option Bytes := none
  topics : Topics := []
  usage : Usage → Bytes

/-- A command that is to be run, with its arguments and flags. -/
structure Call where
  /-- None when the program is run without a command. -/
  command? : Option Command
  arguments : List Bytes
  values : FlagValues

/-- What arguments ask for. -/
inductive Reply where
  /-- A text is shown and nothing is run. -/
  | shown (text : Bytes)
  | rejected (fault : Fault)
  | call (c : Call)

namespace Program

def name (p : Program) : Bytes := p.root.name

def help (p : Program) : Command where
  use := "help [command or topic]"
  short := "Help about any command or topic"
  long :=
    ("Help provides help for any command or topic in the application.\nSimply type " : Bytes)
      ++ p.name ++ (" help [path to command or topic] for full details.\n\n" : Bytes)
      ++ ("To see all available help topics:\n  " : Bytes) ++ p.name ++ (" help topics" : Bytes)
  group := p.helpGroup

def command? (p : Program) (name : Bytes) : Option Command :=
  (p.commands ++ [p.help]).find? (·.name == name)

/-- A command as it is written; the program itself when there is none. -/
def pathOf (p : Program) : Option Command → Bytes
  | none => p.name
  | some c => p.name ++ (" " : Bytes) ++ c.name

/-! ## Suggestions -/

/-- The next row of the table of distances: `left` is the entry before, `diagonal` the one above
it. -/
def distanceRow (c : UInt8) (left diagonal : Nat) : Bytes → List Nat → List Nat
  | d :: t, up :: row =>
    let entry := if c = d then diagonal else min (min left up) diagonal + 1
    entry :: distanceRow c entry up t row
  | _, _ => []

/-- The table of distances, row by row; the result is its last entry. -/
def distanceFrom (t : Bytes) (first : Nat) (row : List Nat) : Bytes → Nat
  | [] => (first :: row).getLast?.getD 0
  | c :: s => distanceFrom t (first + 1) (distanceRow c (first + 1) first t row) s

/-- The least number of bytes to add, drop or replace that make one text into another. -/
def distance (s t : Bytes) : Nat :=
  distanceFrom t 0 ((List.range t.length).map (· + 1)) s

/-- The commands that a misspelt name may mean. -/
def suggestions (p : Program) (typed : Bytes) : List Bytes :=
  let typed := Bytes.lower typed
  (p.commands.map (·.name)).filter fun n =>
    distance typed (Bytes.lower n) ≤ 2 || typed.isPrefixOf (Bytes.lower n)

def unknownCommand (p : Program) (typed : Bytes) : Fault :=
  let hints := p.suggestions typed
  let hint : Bytes :=
    if hints.isEmpty then []
    else ("\n\nDid you mean this?\n" : Bytes)
      ++ hints.flatMap fun h => ("\t" : Bytes) ++ h ++ ("\n" : Bytes)
  .plain
    (("unknown command " : Bytes) ++ Text.quoted typed ++ (" for " : Bytes)
      ++ Text.quoted p.name ++ hint)

/-! ## Finding commands -/

/-- The flags that are known before a command is found. -/
def knownFlags (p : Program) : List Flag := p.root.flags ++ p.globals

/-- Whether an argument is a flag that takes the next argument; a flag that is not known is taken to
do so. -/
def takesNext (p : Program) (a : Bytes) : Bool :=
  let known := fun f? : Option Flag => (f?.map (!·.needsArgument)).getD false
  if a.contains '='.toUInt8 then false
  else match a with
    | 0x2D :: 0x2D :: name => !known (Flag.withName? p.knownFlags name)
    | [0x2D, letter] => !known (Flag.withLetter? p.knownFlags letter)
    | _ => false

/-- The arguments that are neither flags nor taken by flags. -/
def words (p : Program) : List Bytes → List Bytes
  | [] => []
  | [a] => if a.isEmpty || a.head? == some '-'.toUInt8 then [] else [a]
  | a :: b :: rest =>
    if a == Bytes.ofString "--" then []
    else if p.takesNext a then (if rest.isEmpty then [] else words p rest)
    else if a.isEmpty || a.head? == some '-'.toUInt8 then words p (b :: rest)
    else a :: words p (b :: rest)

/-- The arguments without the first one that is a word, when the word is what is looked for. -/
def dropWord (p : Program) (word : Bytes) : List Bytes → List Bytes
  | [] => []
  | [a] => if a == word then [] else [a]
  | a :: b :: rest =>
    if a == Bytes.ofString "--" then a :: b :: rest
    else if p.takesNext a then a :: b :: dropWord p word rest
    else if a == word then b :: rest
    else a :: dropWord p word (b :: rest)

/-- The command that arguments name, with the other arguments; none when they name none. -/
def find (p : Program) (arguments : List Bytes) : Except Fault (Option Command × List Bytes) :=
  match p.words arguments with
  | [] => .ok (none, arguments)
  | word :: _ =>
    match p.command? word with
    | some c => .ok (some c, p.dropWord word arguments)
    | none =>
      if p.takesArguments then .ok (none, arguments) else .error (p.unknownCommand word)

/-! ## Help texts -/

def helpFlag (name : Bytes) : Flag :=
  { name := "help", letter? := some 'h'.toUInt8, kind := .truth,
    usage := ("help for " : Bytes) ++ name }

def versionFlag (name : Bytes) : Flag :=
  { name := "version", kind := .truth, usage := ("version for " : Bytes) ++ name }

/-- The flags of a command itself. A command that is being run has a flag for help, and the program
then has one for its version. -/
def ownFlags (p : Program) (running : Bool) : Option Command → List Flag
  | none =>
    p.knownFlags
      ++ (if running then
            helpFlag p.name :: (p.version?.map fun _ => versionFlag p.name).toList
          else [])
  | some c => c.flags ++ (if running then [helpFlag c.name] else [])

def inheritedFlags (p : Program) : Option Command → List Flag
  | none => []
  | some _ => p.globals

def useLine (p : Program) (running : Bool) (c? : Option Command) : Bytes :=
  let c := c?.getD p.root
  let written := match c? with
    | none => c.use
    | some c => p.name ++ (" " : Bytes) ++ c.use
  let hasFlags := !(p.ownFlags running c? ++ p.inheritedFlags c?).isEmpty
  if c.mentionsFlags && hasFlags && !Bytes.includes written "[flags]" then
    written ++ (" [flags]" : Bytes)
  else written

/-- The groups of commands: titles, and names with short texts. -/
def listing (p : Program) : List (Bytes × List (Bytes × Bytes)) :=
  let sorted := (p.commands ++ [p.help]).mergeSort fun a b => Bytes.le a.name b.name
  p.groups.map fun (group, title) =>
    (title, (sorted.filter (·.group == group)).map fun c => (c.name, c.short))

/-- What a usage text can tell about a command. -/
def usageOf (p : Program) (running : Bool) (c? : Option Command) : Usage where
  useLine := p.useLine running c?
  path := p.pathOf c?
  example_ := (c?.getD p.root).example_
  groups := if c?.isNone then p.listing else []
  hasCommands := c?.isNone
  own := p.ownFlags running c?
  inherited := p.inheritedFlags c?

def helpText (p : Program) (running : Bool) (c? : Option Command) : Bytes :=
  let c := c?.getD p.root
  let about := Bytes.trimEnd (if c.long.isEmpty then c.short else c.long)
  (if about.isEmpty then [] else about ++ ("\n\n" : Bytes)) ++ p.usage (p.usageOf running c?)

/-- The help on what arguments name: a topic, all topics, a command or the program; `running` is the
command that is being run. -/
def helpOn (p : Program) (running : Bytes) (arguments : List Bytes) : Bytes :=
  let textOf := fun c? : Option Command => p.helpText (c?.any (·.name == running)) c?
  match arguments with
  | [] => textOf none
  | a :: _ =>
    if a == Bytes.ofString "topics" then p.topics.index p.name
    else match p.topics.find? a with
      | some t => t.content
      | none =>
        match p.find arguments with
        | .ok (c?, _) => textOf c?
        | .error _ => textOf none

/-! ## Answers -/

def checkArity (p : Program) (c : Command) (arguments : List Bytes) : Except Fault Unit :=
  let received := (" arg(s), received " : Bytes) ++ Bytes.natural arguments.length
  let n := arguments.length
  match c.arity with
  | .any => .ok ()
  | .noArguments =>
    match arguments with
    | [] => .ok ()
    | a :: _ =>
      Flag.reject (("unknown command " : Bytes) ++ Text.quoted a ++ (" for " : Bytes)
        ++ Text.quoted (p.pathOf (some c)))
  | .exactly k =>
    if n = k then .ok () else Flag.reject (("accepts " : Bytes) ++ Bytes.natural k ++ received)
  | .between low high =>
    if low ≤ n ∧ n ≤ high then .ok ()
    else Flag.reject (("accepts between " : Bytes) ++ Bytes.natural low ++ (" and " : Bytes)
      ++ Bytes.natural high ++ received)
  | .atMost k =>
    if n ≤ k then .ok ()
    else Flag.reject (("accepts at most " : Bytes) ++ Bytes.natural k ++ received)
  | .oneOf known =>
    match arguments with
    | [a] =>
      if known.contains a then .ok ()
      else Flag.reject (("invalid argument " : Bytes) ++ Text.quoted a ++ (" for " : Bytes)
        ++ Text.quoted (p.pathOf (some c)))
    | _ => Flag.reject (("accepts 1" : Bytes) ++ received)

def versionText (p : Program) (version : Bytes) : Bytes :=
  p.name ++ (" version " : Bytes) ++ version ++ ("\n" : Bytes)

/-- What a flag that asks for help shows: the topic that the first of all arguments names, or else
the help text of the command. -/
def requestedHelp (p : Program) (c? : Option Command) (all : List Bytes) : Bytes :=
  match all.head?.bind p.topics.find? with
  | some t => t.content
  | none => p.helpText true c?

/-- What the arguments of a command ask for; `all` are all arguments. -/
def answerFor (p : Program) (c? : Option Command) (all arguments : List Bytes) : Reply :=
  match Flag.parse (p.ownFlags true c? ++ p.inheritedFlags c?) arguments with
  | .error f => .rejected f
  | .ok (words, values) =>
    if values.isOn "help" then .shown (p.requestedHelp c? all)
    else match (if c?.isNone && values.isOn "version" then p.version? else none) with
      | some version => .shown (p.versionText version)
      | none =>
        match (match c? with
          | some c => p.checkArity c words
          | none => .ok ()) with
        | .error f => .rejected f
        | .ok _ => .call ⟨c?, words, values⟩

/-- What arguments ask for. The arguments of `help` are never taken for flags. -/
def answer (p : Program) (arguments : List Bytes) : Reply :=
  match p.find arguments with
  | .error f => .rejected f
  | .ok (c?, rest) =>
    if c?.any (·.name == p.help.name) then .shown (p.helpOn p.help.name rest)
    else p.answerFor c? arguments rest

end Program

end Flowsmith
