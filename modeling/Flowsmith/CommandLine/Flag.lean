import Flowsmith.Message
import Flowsmith.Text.Numeral

/-!
# Flags

A flag is written after two dashes by its name, or after one dash by its letter. A truth value and a
count need no argument; a text takes what follows an equals sign, or the next argument.

* `Flag` : a flag that can be given;
* `Flag.parse` : arguments with flags among them;
* `Flag.usages` : the lines about flags in a help text.
-/

namespace Flowsmith

inductive FlagKind where
  | truth
  | count
  /-- A text, with what holds when it is not given. -/
  | text (initial : Bytes)
  deriving DecidableEq, Repr

structure Flag where
  name : Bytes
  letter? : Option UInt8 := none
  kind : FlagKind
  usage : Bytes
  deriving DecidableEq, Repr

inductive FlagValue where
  | truth (b : Bool)
  | count (n : Int)
  | text (s : Bytes)
  deriving DecidableEq, Repr

abbrev FlagValues := List (Bytes × FlagValue)

namespace FlagValues

def put (vs : FlagValues) (name : Bytes) (v : FlagValue) : FlagValues :=
  vs.filter (·.1 != name) ++ [(name, v)]

def value? (vs : FlagValues) (name : Bytes) : Option FlagValue :=
  (List.find? (fun v : Bytes × FlagValue => v.1 == name) vs).map (·.2)

def isOn (vs : FlagValues) (name : Bytes) : Bool := vs.value? name == some (.truth true)

def text? (vs : FlagValues) (name : Bytes) : Option Bytes :=
  match vs.value? name with
  | some (.text s) => some s
  | _ => none

end FlagValues

namespace Flag

def needsArgument (f : Flag) : Bool :=
  match f.kind with
  | .text _ => true
  | _ => false

def withName? (flags : List Flag) (name : Bytes) : Option Flag := flags.find? (·.name == name)

def withLetter? (flags : List Flag) (letter : UInt8) : Option Flag :=
  flags.find? (·.letter? == some letter)

def reject {α : Type} (message : Bytes) : Except Fault α := .error (.plain message)

/-! ## Values -/

def shown (f : Flag) : Bytes :=
  match f.letter? with
  | some c => ("-" : Bytes) ++ [c] ++ (", --" : Bytes) ++ f.name
  | none => ("--" : Bytes) ++ f.name

def invalid {α : Type} (f : Flag) (argument reader reason : Bytes) : Except Fault α :=
  reject
    (("invalid argument " : Bytes) ++ Text.quoted argument ++ (" for " : Bytes)
      ++ Text.quoted f.shown ++ (" flag: strconv." : Bytes) ++ reader ++ (": parsing " : Bytes)
      ++ Text.quoted argument ++ (": " : Bytes) ++ reason)

def isLargeInteger (s : Bytes) : Bool :=
  (Text.integer? s).isNone && (Text.magnitude? (Text.unsigned s).2).isSome

def assign (f : Flag) (argument : Bytes) (vs : FlagValues) : Except Fault FlagValues :=
  match f.kind with
  | .truth =>
    match Text.truth? argument with
    | some b => .ok (vs.put f.name (.truth b))
    | none => f.invalid argument "ParseBool" "invalid syntax"
  | .text _ => .ok (vs.put f.name (.text argument))
  | .count =>
    match Text.integer? argument with
    | some n => .ok (vs.put f.name (.count n))
    | none =>
      f.invalid argument "ParseInt"
        (if isLargeInteger argument then "value out of range" else "invalid syntax")

def raise (f : Flag) (vs : FlagValues) : FlagValues :=
  match f.kind with
  | .truth => vs.put f.name (.truth true)
  | .count =>
    match vs.value? f.name with
    | some (.count n) => vs.put f.name (.count (n + 1))
    | _ => vs.put f.name (.count 1)
  | .text _ => vs

/-! ## Arguments -/

/-- Reads letters after one dash: the values, and whether the next argument was used. -/
def parseLetters (flags : List Flag) (next? : Option Bytes) (vs : FlagValues) :
    Bytes → Except Fault (FlagValues × Bool)
  | [] => .ok (vs, false)
  | c :: rest =>
    if ("test." : Bytes).isPrefixOf (c :: rest) then .ok (vs, false)
    else
      let place : Bytes := Message.quotedCharacter c.toNat ++ (" in -" : Bytes) ++ c :: rest
      match withLetter? flags c with
      | none => reject (("unknown shorthand flag: " : Bytes) ++ place)
      | some f =>
        match rest with
        | 0x3D :: d :: more => (f.assign (d :: more) vs).map (·, false)
        | rest =>
          if !f.needsArgument then parseLetters flags next? (f.raise vs) rest
          else if !rest.isEmpty then (f.assign rest vs).map (·, false)
          else match next? with
            | some argument => (f.assign argument vs).map (·, true)
            | none => reject (("flag needs an argument: " : Bytes) ++ place)

/-- Reads a name after two dashes: the values, and whether the next argument was used. -/
def parseName (flags : List Flag) (next? : Option Bytes) (vs : FlagValues) (written : Bytes) :
    Except Fault (FlagValues × Bool) :=
  let dashed := ("--" : Bytes) ++ written
  if written.isEmpty || written.head? == some '-'.toUInt8 || written.head? == some '='.toUInt8 then
    reject (("bad flag syntax: " : Bytes) ++ dashed)
  else
    let (name, argument?) : Bytes × Option Bytes := match Bytes.cut? written "=" with
      | some (name, argument) => (name, some argument)
      | none => (written, none)
    match withName? flags name with
    | none => reject (("unknown flag: --" : Bytes) ++ name)
    | some f =>
      match argument? with
      | some argument => (f.assign argument vs).map (·, false)
      | none =>
        if !f.needsArgument then .ok (f.raise vs, false)
        else match next? with
          | some argument => (f.assign argument vs).map (·, true)
          | none => reject (("flag needs an argument: " : Bytes) ++ dashed)

/-- Whether an argument is a flag: a dash with something after it. -/
def isFlag : Bytes → Bool
  | 0x2D :: _ :: _ => true
  | _ => false

def parseOne (flags : List Flag) (next? : Option Bytes) (vs : FlagValues) (argument : Bytes) :
    Except Fault (FlagValues × Bool) :=
  match argument with
  | 0x2D :: 0x2D :: name => parseName flags next? vs name
  | 0x2D :: letters => parseLetters flags next? vs letters
  | _ => .ok (vs, false)

/-- Reads arguments: those that are no flags, and the values of the flags. Nothing is a flag after
two dashes alone. -/
def parseFrom (flags : List Flag) (vs : FlagValues) :
    List Bytes → Except Fault (List Bytes × FlagValues)
  | [] => .ok ([], vs)
  | [a] =>
    if a == Bytes.ofString "--" then .ok ([], vs)
    else if isFlag a then (parseOne flags none vs a).map fun r => ([], r.1)
    else .ok ([a], vs)
  | a :: b :: rest =>
    if a == Bytes.ofString "--" then .ok (b :: rest, vs)
    else if isFlag a then
      match parseOne flags (some b) vs a with
      | .error f => .error f
      | .ok (vs, true) => parseFrom flags vs rest
      | .ok (vs, false) => parseFrom flags vs (b :: rest)
    else (parseFrom flags vs (b :: rest)).map fun r => (a :: r.1, r.2)

def parse (flags : List Flag) (arguments : List Bytes) : Except Fault (List Bytes × FlagValues) :=
  parseFrom flags [] arguments

/-! ## Help -/

def signature (f : Flag) : Bytes :=
  let written : Bytes := match f.letter? with
    | some c => ("  -" : Bytes) ++ [c] ++ (", --" : Bytes) ++ f.name
    | none => ("      --" : Bytes) ++ f.name
  match f.kind with
  | .truth => written
  | .count => written ++ (" count" : Bytes)
  | .text _ => written ++ (" string" : Bytes)

/-- What a help text says about a flag. -/
def description (f : Flag) : Bytes :=
  match f.kind with
  | .text initial =>
    if initial.isEmpty then f.usage
    else f.usage ++ (" (default " : Bytes) ++ Text.quoted initial ++ (")" : Bytes)
  | _ => f.usage

/-- The lines about flags in a help text, in the order of their names. -/
def usages (flags : List Flag) : Bytes :=
  let sorted := flags.mergeSort fun a b => Bytes.le a.name b.name
  let width := (sorted.map fun f => f.signature.length).foldl max 0
  Bytes.joinWith [Bytes.newline] (sorted.map fun f =>
    f.signature ++ Bytes.spaces (width + 3 - f.signature.length) ++ f.description)

end Flag

end Flowsmith
