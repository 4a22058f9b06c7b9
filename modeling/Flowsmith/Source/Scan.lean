import Flowsmith.Fault
import Flowsmith.Source.Group
import Flowsmith.Source.Outline

/-!
# Scanning a source

`outline` reads the outline of a source from its tokens. It classifies what it can and never
rejects: a declaration it does not know is a member of shape `other`. A bracket that is not closed
extends to the end of the tokens at hand; the one thing that cannot be read then is a block without
any token after its opening brace.

* `memberSplit` : the tokens of the first member of a class body, and the rest;
* `afterType?` : what follows a type;
* `paramsOf`, `accessorsOf`, `bodyOf` : the parts of a declaration;
* `memberOf` : a member from its tokens;
* `outline` : the outline of a source.
-/

namespace Flowsmith.Source

/-! ## Words with a meaning -/

def modifierWords : List Bytes :=
  ["public", "private", "protected", "internal", "static", "virtual", "override", "abstract",
   "sealed", "readonly", "const", "volatile", "extern", "new", "unsafe", "async", "partial",
   "required", "fixed"]

def typeWords : List Bytes := ["class", "struct", "interface", "enum", "delegate", "record"]

def paramWords : List Bytes := ["ref", "out", "in", "params", "this", "scoped"]

def isWordOf (words : List Bytes) (t : Token) : Bool := t.isWord && words.contains t.text

def isModifier (t : Token) : Bool := isWordOf modifierWords t

def isAccessorModifier (t : Token) : Bool := isWordOf ("readonly" :: accessWords) t

/-! ## Attributes -/

/-- The attribute sections at the beginning, and the tokens after them. -/
def attributesSplit (ts : List Token) : List (List Token) × List Token :=
  match ts with
  | [] => ([], [])
  | t :: rest =>
    if t.is "[" then
      have := length_splitPair_lt "[" "]" t rest
      let pair := splitPair "[" "]" (t :: rest)
      let more := attributesSplit pair.2
      (pair.1 :: more.1, more.2)
    else ([], t :: rest)
termination_by ts.length

theorem length_attributesSplit_le (ts : List Token) :
    (attributesSplit ts).2.length ≤ ts.length := by
  fun_induction attributesSplit ts with
  | case1 => simp
  | case2 t rest _ hlt pair more ih =>
    simp only [List.length_cons]
    exact Nat.le_trans ih (Nat.le_of_lt hlt)
  | case3 => simp

/-! ## Parameters -/

/-- What a token adds to the nesting inside a parameter list. -/
def paramDelta (t : Token) : Int :=
  if t.is "(" || t.is "[" || t.is Bytes.leftBrace || t.is "<" then 1
  else if t.is ")" || t.is "]" || t.is Bytes.rightBrace || t.is ">" then -1
  else 0

/-- The groups between the commas at nesting zero, from nesting `depth` on. -/
def commaGroups (depth : Int) : List Token → List (List Token)
  | [] => [[]]
  | t :: ts =>
    if depth = 0 ∧ t.is "," then [] :: commaGroups depth ts
    else match commaGroups (depth + paramDelta t) ts with
      | [] => [[t]]
      | group :: groups => (t :: group) :: groups

def paramOf (cut : Nat → Nat → Bytes) (ts : List Token) : Parameter :=
  let ts := (attributesSplit ts).2
  let mods := ts.takeWhile (isWordOf paramWords)
  let ts := ts.dropWhile (isWordOf paramWords)
  let declared := ts.takeWhile (!·.is "=")
  let start : Parameter :=
    { modifiers := mods.map (·.text), default := raw cut (ts.dropWhile (!·.is "=")).tail }
  match declared.getLast? with
  | none => start
  | some last => { start with name := last.text, type := flat cut declared.dropLast }

def paramsOf (cut : Nat → Nat → Bytes) (ts : List Token) : List Parameter :=
  ((commaGroups 0 ts).filter (!·.isEmpty)).map (paramOf cut)

/-! ## Bodies and accessors -/

def blockText (cut : Nat → Nat → Bytes) (ts : List Token) : Except Fault Bytes :=
  match inside? cut ts with
  | some s => .ok s
  | none => .error (.aborted .unclosedBlock)

def bodyOf (cut : Nat → Nat → Bytes) : List Token → Except Fault Body
  | [] => .ok .absent
  | t :: ts =>
    if t.is Bytes.leftBrace then
      (blockText cut (splitPair Bytes.leftBrace Bytes.rightBrace (t :: ts)).1).map .block
    else if t.is "=>" then .ok (.expression (raw cut (dropSemicolon ts)))
    else if t.is ";" then .ok .absent
    else bodyOf cut ts

/-- The accessors from the tokens between the braces of a property. -/
def accessorsOf (cut : Nat → Nat → Bytes) (ts : List Token) : Except Fault (List Accessor) :=
  let bare := (attributesSplit ts).2
  let mods := (bare.takeWhile isAccessorModifier).map (·.text)
  have hle : (bare.dropWhile isAccessorModifier).length ≤ ts.length :=
    Nat.le_trans (List.dropWhile_sublist _).length_le (length_attributesSplit_le ts)
  match h : bare.dropWhile isAccessorModifier with
  | [] => .ok []
  | [keyword] => .ok [{ keyword := keyword.text, modifiers := mods }]
  | keyword :: next :: after =>
    have hlt : after.length + 1 < ts.length := by rw [h] at hle; exact hle
    let acc : Accessor := { keyword := keyword.text, modifiers := mods }
    if next.is ";" then
      (accessorsOf cut after).map ({ acc with auto := true } :: ·)
    else if next.is Bytes.leftBrace then do
      have hpair := length_splitPair_lt Bytes.leftBrace Bytes.rightBrace next after
      let pair := splitPair Bytes.leftBrace Bytes.rightBrace (next :: after)
      let body ← blockText cut pair.1
      (accessorsOf cut pair.2).map ({ acc with body := body } :: ·)
    else if next.is "=>" then
      have hskip : (after.dropWhile (!·.is ";")).tail.length ≤ after.length :=
        Nat.le_trans (List.tail_sublist _).length_le (List.dropWhile_sublist _).length_le
      (accessorsOf cut (after.dropWhile (!·.is ";")).tail).map
        ({ acc with body := raw cut (after.takeWhile (!·.is ";")) } :: ·)
    else (accessorsOf cut (next :: after)).map (acc :: ·)
termination_by ts.length
decreasing_by
  · exact Nat.lt_of_succ_lt hlt
  · exact Nat.lt_trans hpair hlt
  · exact Nat.lt_of_le_of_lt hskip (Nat.lt_of_succ_lt hlt)
  · exact hlt

/-! ## Types and names -/

/-- The tokens after the dotted, qualified and generic parts of a type name. -/
def afterTypeName (ts : List Token) : List Token :=
  match ts with
  | [] => []
  | t :: rest =>
    if t.is "." && rest.head?.any (·.isWord) then afterTypeName (rest.drop 1)
    else if t.is ":" && startsWith rest ":" && (rest.drop 1).head?.any (·.isWord) then
      afterTypeName (rest.drop 2)
    else if t.is "<" then
      have := length_splitPair_lt "<" ">" t rest
      afterTypeName (splitPair "<" ">" (t :: rest)).2
    else t :: rest
termination_by ts.length

/-- The tokens after the marks for null, pointers and arrays at the end of a type. -/
def afterTypeMarks (ts : List Token) : List Token :=
  match ts with
  | [] => []
  | t :: rest =>
    if t.is "?" || t.is "*" then afterTypeMarks rest
    else if t.is "[" && (startsWith rest "]" || startsWith rest ",") then
      have := length_splitPair_lt "[" "]" t rest
      afterTypeMarks (splitPair "[" "]" (t :: rest)).2
    else t :: rest
termination_by ts.length

/-- The tokens after the type at the beginning, none when there is no type. -/
def afterType? (ts : List Token) : Option (List Token) :=
  match ts with
  | [] => none
  | t :: rest =>
    if t.is "(" then some (afterTypeMarks (splitPair "(" ")" (t :: rest)).2)
    else if t.isWord then some (afterTypeMarks (afterTypeName rest))
    else none

/-- The last word before the first of the marks, empty when there is none. -/
def lastWordBefore (marks : List Bytes) (name : Bytes) : List Token → Bytes
  | [] => name
  | t :: ts =>
    if marks.any t.is then name
    else lastWordBefore marks (if t.isWord then t.text else name) ts

/-- The last word of a dotted name that begins with `name`, and the tokens after it. -/
def dottedName (name : Bytes) : List Token → Bytes × List Token
  | dot :: word :: ts =>
    if dot.is "." && word.isWord then dottedName word.text ts else (name, dot :: word :: ts)
  | ts => (name, ts)

/-! ## Members -/

/-- A member with a type and a name: a method, a property or a field. -/
def typedMember (cut : Nat → Nat → Bytes) (m : Member) (ts : List Token) : Except Fault Member :=
  match afterType? ts with
  | none => .ok m
  | some [] => .ok m
  | some (word :: rest) =>
    if !word.isWord then .ok m
    else if word.is "this" || word.is "operator" then .ok { m with name := word.text }
    else
      let named := dottedName word.text rest
      let m := { m with
        name := named.1, type := flat cut (ts.take (ts.length - (rest.length + 1))) }
      let after := if startsWith named.2 "<" then (splitPair "<" ">" named.2).2 else named.2
      if startsWith after "(" then do
        let pair := splitPair "(" ")" after
        let body ← bodyOf cut pair.2
        return { m with shape := .method (paramsOf cut pair.1.tail.dropLast) body }
      else if startsWith after Bytes.leftBrace then do
        let pair := splitPair Bytes.leftBrace Bytes.rightBrace after
        let accessors ← accessorsOf cut pair.1.tail.dropLast
        return { m with shape := .property accessors }
      else if startsWith after "=>" then
        let getter : Accessor := { keyword := "get", body := raw cut (dropSemicolon after.tail) }
        .ok { m with shape := .property [getter] }
      else .ok { m with shape := .field }

/-- A member of the class `owner` from its tokens, without its text and column. -/
def memberOf (cut : Nat → Nat → Bytes) (owner : Bytes) (ts : List Token) : Except Fault Member :=
  let attributed := attributesSplit ts
  let m : Member :=
    { attributes := attributed.1.map (flat cut),
      modifiers := (attributed.2.takeWhile isModifier).map (·.text) }
  match attributed.2.dropWhile isModifier with
  | [] => .ok m
  | t :: rest =>
    if isWordOf typeWords t then
      let name := if t.is "delegate" then lastWordBefore ["("] [] (t :: rest) else headText rest
      .ok { m with name := name }
    else if t.is "event" then
      .ok { m with name := lastWordBefore [Bytes.leftBrace, "=", ";"] [] (t :: rest) }
    else if t.is "~" then
      .ok { m with name := if rest.isEmpty then [] else ("~" : Bytes) ++ headText rest }
    else if t.isWord && t.text == owner && startsWith rest "(" then do
      let pair := splitPair "(" ")" rest
      let body ← bodyOf cut pair.2
      return { m with
        name := owner, shape := .constructor (paramsOf cut pair.1.tail.dropLast) body }
    else typedMember cut m (t :: rest)

def opens (t : Token) : Bool := t.is "(" || t.is "[" || t.is Bytes.leftBrace

def closes (t : Token) : Bool := t.is ")" || t.is "]" || t.is Bytes.rightBrace

/-- The tokens of the member at the beginning, and the tokens after it. A member ends with a
semicolon at nesting zero, or with the brace that closes its first block, unless a value has been
assigned before or is assigned after it. -/
def memberSplitFrom (depth : Int) (assigned operator : Bool) :
    List Token → List Token × List Token
  | [] => ([], [])
  | t :: ts =>
    if opens t then
      let parts := memberSplitFrom (depth + 1) assigned operator ts
      (t :: parts.1, parts.2)
    else if closes t then
      if t.is Bytes.rightBrace && depth == 1 && !assigned then
        if startsWith ts "=" then
          let parts := memberSplitFrom 0 true operator ts
          (t :: parts.1, parts.2)
        else ([t], ts)
      else
        let parts := memberSplitFrom (depth - 1) assigned operator ts
        (t :: parts.1, parts.2)
    else if depth == 0 && t.is ";" then ([t], ts)
    else
      let parts := memberSplitFrom depth
        (assigned || (depth == 0 && !operator && (t.is "=" || t.is "=>")))
        (operator || (depth == 0 && t.is "operator")) ts
      (t :: parts.1, parts.2)

/-- The tokens of the first member of a class body, and the tokens after it. -/
def memberSplit (ts : List Token) : List Token × List Token := memberSplitFrom 0 false false ts

theorem memberSplitFrom_append (depth : Int) (assigned operator : Bool) (ts : List Token) :
    (memberSplitFrom depth assigned operator ts).1
      ++ (memberSplitFrom depth assigned operator ts).2 = ts := by
  induction ts generalizing depth assigned operator with
  | nil => rfl
  | cons t ts ih =>
    unfold memberSplitFrom
    split
    · simp [ih]
    · split
      · split
        · split <;> simp [ih]
        · simp [ih]
      · split <;> simp [ih]

theorem memberSplit_fst_ne_nil (t : Token) (ts : List Token) : (memberSplit (t :: ts)).1 ≠ [] := by
  unfold memberSplit memberSplitFrom
  split
  · simp
  · split
    · split
      · split <;> simp
      · simp
    · split <;> simp

theorem length_memberSplit_lt (t : Token) (ts : List Token) :
    (memberSplit (t :: ts)).2.length < ts.length + 1 := by
  have happ := congrArg List.length (memberSplitFrom_append 0 false false (t :: ts))
  have hne := List.length_pos_iff.2 (memberSplit_fst_ne_nil t ts)
  simp only [List.length_append, List.length_cons] at happ
  simp only [memberSplit] at hne ⊢
  omega

/-- The offset at which the text of a declaration starts: that of the first comment or preprocessor
line after `boundary` that is on a later line, or else that of the declaration's first token. -/
def textStart (cut : Nat → Nat → Bytes) (trivia : List Token) (boundary first : Nat) : Nat :=
  match trivia.find? fun c =>
      boundary ≤ c.start && c.stop ≤ first
        && (cut boundary c.start).contains Bytes.newline with
  | some c => c.start
  | none => first

/-- The number of bytes between an offset and the start of its line. -/
def columnOf (cut : Nat → Nat → Bytes) (offset : Nat) : Nat :=
  offset - Bytes.afterLast (cut 0 offset) Bytes.newline

/-- The members of the class `owner` from the tokens of its body; `boundary` is where the token in
front of them stops. -/
def membersOf (cut : Nat → Nat → Bytes) (owner : Bytes) (trivia : List Token) (boundary : Nat)
    (ts : List Token) : Except Fault (List Member) :=
  match ts with
  | [] => .ok []
  | t :: rest =>
    if t.is ";" then membersOf cut owner trivia t.stop rest
    else do
      have := length_memberSplit_lt t rest
      let parts := memberSplit (t :: rest)
      let m ← memberOf cut owner parts.1
      let start := textStart cut trivia boundary t.start
      let stop := (parts.1.getLast?.map (·.stop)).getD t.stop
      let m := { m with text := cut start stop, column := columnOf cut start }
      let ms ← membersOf cut owner trivia stop parts.2
      return m :: ms
termination_by ts.length

/-! ## Classes and sources -/

/-- Whether the word `class` after the tokens `before` (in reverse) begins a declaration. -/
def beginsClass (before after : List Token) : Bool :=
  after.head?.any (·.isWord)
    && !(before.head?.any fun t => t.is ":" || t.is "," || t.is ".")

/-- The class whose keyword stands after the tokens `before` (in reverse). -/
def classOf (cut : Nat → Nat → Bytes) (trivia before : List Token) (keyword : Token)
    (after : List Token) : Except Fault Class := do
  let mods := (before.takeWhile isModifier).reverse
  let rest := after.tail
  let rest := if startsWith rest "<" then (splitPair "<" ">" rest).2 else rest
  let based := startsWith rest ":"
  let inHead := fun t : Token => !(t.is Bytes.leftBrace || t.is "where")
  let cls : Class :=
    { name := headText after, modifiers := mods.map (·.text),
      bases := if based then flat cut (rest.tail.takeWhile inHead) else [],
      start := (mods.head?.map (·.start)).getD keyword.start, keywordStart := keyword.start }
  match rest.dropWhile (!·.is Bytes.leftBrace) with
  | [] => return cls
  | brace :: inner =>
    let body := (splitPair Bytes.leftBrace Bytes.rightBrace (brace :: inner)).1.tail.dropLast
    let members ← membersOf cut cls.name trivia brace.stop body
    return { cls with members := members }

/-- The outline found from `found` on; `before` are the tokens in front, in reverse. -/
def outlineFrom (cut : Nat → Nat → Bytes) (trivia : List Token) (found : Outline)
    (before : List Token) (ts : List Token) : Except Fault Outline :=
  match ts with
  | [] => .ok found
  | t :: rest =>
    if t.is "using" && rest.head?.any (·.isWord) then
      let target := rest.takeWhile (!·.is ";")
      outlineFrom cut trivia { found with usings := found.usings ++ [flat cut target] }
        ((rest.take (target.length + 1)).reverse ++ t :: before) (rest.drop (target.length + 1))
    else if t.is "namespace" && found.space.isEmpty then
      let name := rest.takeWhile fun t => !(t.is Bytes.leftBrace || t.is ";")
      outlineFrom cut trivia { found with space := flat cut name }
        ((rest.take (name.length + 1)).reverse ++ t :: before) (rest.drop (name.length + 1))
    else if t.is "class" && beginsClass before rest then
      (classOf cut trivia before t rest).map fun c => { found with class? := some c }
    else outlineFrom cut trivia found (t :: before) rest
termination_by ts.length

def outline (src : Bytes) : Except Fault Outline :=
  let all := tokens src
  outlineFrom src.slice (all.filter (·.isTrivia)) {} [] (all.filter (!·.isTrivia))

end Flowsmith.Source
