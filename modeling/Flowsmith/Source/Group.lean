import Flowsmith.Source.Token
import Flowsmith.Text.Blank

/-!
# Groups of tokens

A declaration is a list of tokens, and its parts are lists of tokens in turn: what stands between
two brackets, the tokens of a type, the tokens of one parameter. The text of a group is cut out of the
source: `cut x y` is what stands between two offsets.

* `splitPair` : the tokens through the bracket that closes the first one, and the tokens after it;
* `raw`, `flat` : the text a group spans, as it stands and with its blanks collapsed;
* `inside?` : the text between the first and the last token of a group;
* `splitPair_append`, `length_splitPair_lt` : no token is lost, and something is taken.
-/

namespace Flowsmith.Source

/-- The tokens through the one that brings the nesting of `opener` and `closer` back to zero from
`depth`, and the tokens after it; all tokens when there is none. -/
def splitPairFrom (opener closer : Bytes) (depth : Nat) : List Token → List Token × List Token
  | [] => ([], [])
  | t :: ts =>
    if t.is opener then
      let parts := splitPairFrom opener closer (depth + 1) ts
      (t :: parts.1, parts.2)
    else if t.is closer then
      if depth ≤ 1 then ([t], ts)
      else
        let parts := splitPairFrom opener closer (depth - 1) ts
        (t :: parts.1, parts.2)
    else
      let parts := splitPairFrom opener closer depth ts
      (t :: parts.1, parts.2)

/-- The tokens through the bracket that closes the first token, and the tokens after it; all tokens
when it is not closed. -/
def splitPair (opener closer : Bytes) (ts : List Token) : List Token × List Token :=
  splitPairFrom opener closer 0 ts

theorem splitPairFrom_append (opener closer : Bytes) (depth : Nat) (ts : List Token) :
    (splitPairFrom opener closer depth ts).1 ++ (splitPairFrom opener closer depth ts).2 = ts := by
  induction ts generalizing depth with
  | nil => rfl
  | cons t ts ih =>
    unfold splitPairFrom
    split
    · simp [ih]
    · split
      · split <;> simp [ih]
      · simp [ih]

theorem splitPair_append (opener closer : Bytes) (ts : List Token) :
    (splitPair opener closer ts).1 ++ (splitPair opener closer ts).2 = ts :=
  splitPairFrom_append opener closer 0 ts

theorem splitPair_fst_ne_nil (opener closer : Bytes) (t : Token) (ts : List Token) :
    (splitPair opener closer (t :: ts)).1 ≠ [] := by
  unfold splitPair splitPairFrom
  split
  · simp
  · split
    · split <;> simp
    · simp

theorem length_splitPair_lt (opener closer : Bytes) (t : Token) (ts : List Token) :
    (splitPair opener closer (t :: ts)).2.length < ts.length + 1 := by
  have happ := congrArg List.length (splitPair_append opener closer (t :: ts))
  have hne := List.length_pos_iff.2 (splitPair_fst_ne_nil opener closer t ts)
  simp only [List.length_append, List.length_cons] at happ
  omega

/-- The text from the first through the last token of a group, as it stands in the source. -/
def raw (cut : Nat → Nat → Bytes) (ts : List Token) : Bytes :=
  match ts.head?, ts.getLast? with
  | some a, some b => cut a.start b.stop
  | _, _ => []

/-- The text of a group with one space for every run of blanks. -/
def flat (cut : Nat → Nat → Bytes) (ts : List Token) : Bytes := (raw cut ts).collapse

/-- The text between the first and the last token of a group of at least two tokens. -/
def inside? (cut : Nat → Nat → Bytes) : List Token → Option Bytes
  | a :: b :: ts => some (cut a.stop ((b :: ts).getLast (by simp)).start)
  | _ => none

/-- The text of the first token, empty when there is none. -/
def headText (ts : List Token) : Bytes := (ts.head?.map (·.text)).getD []

/-- Whether the first token is the word or mark `w`. -/
def startsWith (ts : List Token) (w : Bytes) : Bool := ts.head?.any (·.is w)

def dropSemicolon (ts : List Token) : List Token :=
  if ts.getLast?.any (·.is ";") then ts.dropLast else ts

end Flowsmith.Source
