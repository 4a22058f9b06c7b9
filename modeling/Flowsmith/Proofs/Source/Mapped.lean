import Flowsmith.Proofs.Source.Thin

/-!
# Tokens seen through a map

A map that leaves alone the kinds of tokens, and the texts of words and marks, changes nothing that the
scanner decides: declarations fall into the same groups.

* `splitPair_map`, `attributesSplit_map`, `commaGroups_map` : the same groups;
* `afterType?_map`, `dottedName_map` : the same types and names;
* `memberSplitFrom_map` : the same ends of members.
-/

namespace Flowsmith.Source

variable {f : Token → Token} (hf : ∀ t, Alike t (f t))

include hf

/-! ## Tests of tokens -/

theorem isWordOf_comp (words : List Bytes) : isWordOf words ∘ f = isWordOf words :=
  funext fun t => (hf t).isWordOf words

theorem not_is_comp (w : Bytes) : (fun t : Token => !t.is w) ∘ f = fun t => !t.is w :=
  funext fun t => congrArg not ((hf t).is w)

theorem paramDelta_map (t : Token) : paramDelta (f t) = paramDelta t := by
  simp only [paramDelta, (hf t).is]

theorem startsWith_map (ts : List Token) (w : Bytes) : startsWith (ts.map f) w = startsWith ts w := by
  cases ts with
  | nil => rfl
  | cons t ts => exact (hf t).is w

theorem any_isWord_map (ts : List Token) :
    (ts.map f).head?.any (·.isWord) = ts.head?.any (·.isWord) := by
  cases ts with
  | nil => rfl
  | cons t ts => exact (hf t).isWord

/-! ## Groups -/

theorem dropSemicolon_map (ts : List Token) : dropSemicolon (ts.map f) = (dropSemicolon ts).map f := by
  have hlast : (ts.map f).getLast?.any (·.is ";") = ts.getLast?.any (·.is ";") := by
    rw [List.getLast?_map]
    cases ts.getLast? with
    | none => rfl
    | some t => exact (hf t).is ";"
  unfold dropSemicolon
  rw [hlast]
  split
  · exact List.map_dropLast.symm
  · rfl

theorem splitPairFrom_map (o c : Bytes) (d : Nat) (ts : List Token) :
    splitPairFrom o c d (ts.map f)
      = ((splitPairFrom o c d ts).1.map f, (splitPairFrom o c d ts).2.map f) := by
  simp only [splitPairFrom_eq]
  refine through_map (fun d t _ => ?_) (fun ts => startsWith_map hf ts "=") d ts
  simp only [pairStep, (hf t).is]

theorem splitPair_map (o c : Bytes) (ts : List Token) :
    splitPair o c (ts.map f) = ((splitPair o c ts).1.map f, (splitPair o c ts).2.map f) :=
  splitPairFrom_map hf o c 0 ts

theorem attributesSplit_map (ts : List Token) :
    attributesSplit (ts.map f)
      = ((attributesSplit ts).1.map (List.map f), (attributesSplit ts).2.map f) := by
  fun_induction attributesSplit ts with
  | case1 =>
    rw [List.map_nil, attributesSplit]
    rfl
  | case2 t rest h hlt pair more ih =>
    have hpair : splitPair "[" "]" (f t :: rest.map f) = (pair.1.map f, pair.2.map f) :=
      splitPair_map hf "[" "]" (t :: rest)
    rw [List.map_cons, attributesSplit, (hf t).is, if_pos h]
    simp only [hpair, ih, List.map_cons]
    rfl
  | case3 t rest h =>
    rw [List.map_cons, attributesSplit, (hf t).is, if_neg h]
    rfl

theorem commaGroups_map (d : Int) (ts : List Token) :
    commaGroups d (ts.map f) = (commaGroups d ts).map (List.map f) := by
  induction ts generalizing d with
  | nil => rfl
  | cons t ts ih =>
    rw [List.map_cons, commaGroups, commaGroups, ih, ih, paramDelta_map hf, (hf t).is]
    split
    · rfl
    · cases commaGroups (d + paramDelta t) ts <;> rfl

/-! ## Types and names -/

theorem afterTypeName_map (ts : List Token) : afterTypeName (ts.map f) = (afterTypeName ts).map f := by
  fun_induction afterTypeName ts with
  | case1 => rw [List.map_nil, afterTypeName]
  | case2 t rest h ih =>
    rw [List.map_cons, afterTypeName, (hf t).is, any_isWord_map hf, if_pos h, ← List.map_drop, ih]
  | case3 t rest h h' ih =>
    rw [List.map_cons, afterTypeName, (hf t).is, any_isWord_map hf, if_neg h, (hf t).is,
      startsWith_map hf, ← List.map_drop, any_isWord_map hf, if_pos h', ← List.map_drop, ih]
  | case4 t rest h h' h'' hlt ih =>
    rw [List.map_cons, afterTypeName, (hf t).is, any_isWord_map hf, if_neg h, (hf t).is,
      startsWith_map hf, ← List.map_drop, any_isWord_map hf, if_neg h', (hf t).is, if_pos h'',
      ← List.map_cons, splitPair_map hf, ih]
  | case5 t rest h h' h'' =>
    rw [List.map_cons, afterTypeName, (hf t).is, any_isWord_map hf, if_neg h, (hf t).is,
      startsWith_map hf, ← List.map_drop, any_isWord_map hf, if_neg h', (hf t).is, if_neg h'']

theorem afterTypeMarks_map (ts : List Token) :
    afterTypeMarks (ts.map f) = (afterTypeMarks ts).map f := by
  fun_induction afterTypeMarks ts with
  | case1 => rw [List.map_nil, afterTypeMarks]
  | case2 t rest h ih => rw [List.map_cons, afterTypeMarks, (hf t).is, (hf t).is, if_pos h, ih]
  | case3 t rest h h' hlt ih =>
    rw [List.map_cons, afterTypeMarks, (hf t).is, (hf t).is, if_neg h, (hf t).is,
      startsWith_map hf, startsWith_map hf, if_pos h', ← List.map_cons, splitPair_map hf, ih]
  | case4 t rest h h' =>
    rw [List.map_cons, afterTypeMarks, (hf t).is, (hf t).is, if_neg h, (hf t).is,
      startsWith_map hf, startsWith_map hf, if_neg h']

theorem afterType?_map (ts : List Token) :
    afterType? (ts.map f) = (afterType? ts).map (List.map f) := by
  cases ts with
  | nil => rfl
  | cons t rest =>
    rw [List.map_cons, afterType?, afterType?, (hf t).is, (hf t).isWord, ← List.map_cons,
      splitPair_map hf, afterTypeMarks_map hf, afterTypeName_map hf, afterTypeMarks_map hf]
    split
    · rfl
    · split <;> rfl

theorem lastWordBefore_map (marks : List Bytes) (name : Bytes) (ts : List Token) :
    lastWordBefore marks name (ts.map f) = lastWordBefore marks name ts := by
  induction ts generalizing name with
  | nil => rfl
  | cons t ts ih =>
    have hmarks : marks.any (f t).is = marks.any t.is := congrArg marks.any (funext (hf t).is)
    have hname : (if t.isWord then (f t).text else name) = if t.isWord then t.text else name := by
      split
      · exact (hf t).text ‹_›
      · rfl
    rw [List.map_cons, lastWordBefore, lastWordBefore, hmarks, ih, (hf t).isWord, hname]

theorem dottedName_map (name : Bytes) (ts : List Token) :
    dottedName name (ts.map f) = ((dottedName name ts).1, (dottedName name ts).2.map f) := by
  match ts with
  | [] => rfl
  | [t] => rfl
  | dot :: word :: ts =>
    rw [List.map_cons, List.map_cons, dottedName, dottedName, (hf dot).is, (hf word).isWord]
    split
    · rename_i h
      rw [(hf word).text (Bool.and_eq_true_iff.1 h).2]
      exact dottedName_map _ ts
    · rfl

/-! ## Ends of members -/

theorem memberSplitFrom_map (d : Int) (a o : Bool) (ts : List Token) :
    memberSplitFrom d a o (ts.map f)
      = ((memberSplitFrom d a o ts).1.map f, (memberSplitFrom d a o ts).2.map f) := by
  simp only [memberSplitFrom_eq]
  refine through_map (fun s t _ => ?_) (fun ts => startsWith_map hf ts "=") _ ts
  simp only [memberStep, (hf t).is, (hf t).opens, (hf t).closes]

end Flowsmith.Source
