import Flowsmith.Proofs.Source.Mapped
import Flowsmith.Proofs.Source.Slice

/-!
# Declarations in another place

A declaration that stands further along in a source is read alike: its tokens are moved, and what is cut
out between them is the same text. Only the text of a member with the comments around it, and its column,
depend on what stands in front.

* `splitPair_shift`, `memberSplitFrom_shift` : the same groups and the same ends of members;
* `memberOf_shift` : the same member;
* `membersOf_shift`, `classOf_shift` : the same members and the same class, but for the texts of members
  and what stands in front of the keyword.
-/

namespace Flowsmith.Source

/-! ## Tokens -/

namespace Token

variable (k : Nat) (t : Token)

@[simp] theorem shift_text : (t.shift k).text = t.text := rfl

@[simp] theorem shift_start : (t.shift k).start = t.start + k := rfl

@[simp] theorem shift_stop : (t.shift k).stop = t.stop + k := Nat.add_right_comm _ _ _

@[simp] theorem shift_is (w : Bytes) : (t.shift k).is w = t.is w := rfl

@[simp] theorem shift_isWord : (t.shift k).isWord = t.isWord := rfl

@[simp] theorem shift_isTrivia : (t.shift k).isTrivia = t.isTrivia := rfl

end Token

theorem alike_shift (k : Nat) (t : Token) : Alike t (t.shift k) := ⟨rfl, fun _ => rfl⟩

theorem isWordOf_shift (k : Nat) (words : List Bytes) :
    isWordOf words ∘ Token.shift k = isWordOf words := rfl

theorem not_is_shift (k : Nat) (w : Bytes) :
    (fun t : Token => !t.is w) ∘ Token.shift k = fun t => !t.is w := rfl

section Groups

variable (k : Nat)

theorem solid_shift (ts : List Token) : solid (ts.map (Token.shift k)) = (solid ts).map (Token.shift k) := by
  unfold solid
  rw [List.filter_map]
  rfl

theorem startsWith_shift (ts : List Token) (w : Bytes) :
    startsWith (ts.map (Token.shift k)) w = startsWith ts w :=
  startsWith_map (alike_shift k) ts w

theorem headText_shift (ts : List Token) : headText (ts.map (Token.shift k)) = headText ts := by
  cases ts <;> rfl

theorem any_isWord_shift (ts : List Token) :
    (ts.map (Token.shift k)).head?.any (·.isWord) = ts.head?.any (·.isWord) :=
  any_isWord_map (alike_shift k) ts

theorem dropSemicolon_shift (ts : List Token) :
    dropSemicolon (ts.map (Token.shift k)) = (dropSemicolon ts).map (Token.shift k) :=
  dropSemicolon_map (alike_shift k) ts

theorem splitPair_shift (o c : Bytes) (ts : List Token) :
    splitPair o c (ts.map (Token.shift k))
      = ((splitPair o c ts).1.map (Token.shift k), (splitPair o c ts).2.map (Token.shift k)) :=
  splitPair_map (alike_shift k) o c ts

theorem attributesSplit_shift (ts : List Token) :
    attributesSplit (ts.map (Token.shift k))
      = ((attributesSplit ts).1.map (List.map (Token.shift k)), (attributesSplit ts).2.map (Token.shift k)) :=
  attributesSplit_map (alike_shift k) ts

theorem commaGroups_shift (d : Int) (ts : List Token) :
    commaGroups d (ts.map (Token.shift k)) = (commaGroups d ts).map (List.map (Token.shift k)) :=
  commaGroups_map (alike_shift k) d ts

theorem afterType?_shift (ts : List Token) :
    afterType? (ts.map (Token.shift k)) = (afterType? ts).map (List.map (Token.shift k)) :=
  afterType?_map (alike_shift k) ts

theorem lastWordBefore_shift (marks : List Bytes) (name : Bytes) (ts : List Token) :
    lastWordBefore marks name (ts.map (Token.shift k)) = lastWordBefore marks name ts :=
  lastWordBefore_map (alike_shift k) marks name ts

theorem dottedName_shift (name : Bytes) (ts : List Token) :
    dottedName name (ts.map (Token.shift k))
      = ((dottedName name ts).1, (dottedName name ts).2.map (Token.shift k)) :=
  dottedName_map (alike_shift k) name ts

theorem memberSplitFrom_shift (d : Int) (a o : Bool) (ts : List Token) :
    memberSplitFrom d a o (ts.map (Token.shift k))
      = ((memberSplitFrom d a o ts).1.map (Token.shift k),
        (memberSplitFrom d a o ts).2.map (Token.shift k)) :=
  memberSplitFrom_map (alike_shift k) d a o ts

end Groups

/-! ## Texts -/

section Texts

variable {cut cut' : Nat → Nat → Bytes} {k : Nat} (hcut : ∀ x y, cut' (x + k) (y + k) = cut x y)

include hcut

theorem raw_shift (ts : List Token) : raw cut' (ts.map (Token.shift k)) = raw cut ts := by
  unfold raw
  rw [List.head?_map, List.getLast?_map]
  cases ts.head? with
  | none => rfl
  | some a =>
    cases ts.getLast? with
    | none => rfl
    | some b =>
      simp only [Option.map_some, Token.shift_start, Token.shift_stop]
      exact hcut a.start b.stop

theorem flat_shift (ts : List Token) : flat cut' (ts.map (Token.shift k)) = flat cut ts := by
  unfold flat
  rw [raw_shift hcut]

theorem inside?_shift (ts : List Token) : inside? cut' (ts.map (Token.shift k)) = inside? cut ts := by
  match ts with
  | [] => rfl
  | [a] => rfl
  | a :: b :: ts =>
    have hlast : ((b :: ts).map (Token.shift k)).getLast (by simp)
        = ((b :: ts).getLast (by simp)).shift k := List.getLast_map _
    simp only [List.map_cons] at hlast
    rw [List.map_cons, List.map_cons, inside?, inside?, hlast, Token.shift_stop, Token.shift_start, hcut]

theorem blockText_shift (ts : List Token) : blockText cut' (ts.map (Token.shift k)) = blockText cut ts := by
  unfold blockText
  rw [inside?_shift hcut]

theorem paramOf_shift (ts : List Token) : paramOf cut' (ts.map (Token.shift k)) = paramOf cut ts := by
  unfold paramOf
  simp only [attributesSplit_shift, List.takeWhile_map, List.dropWhile_map, isWordOf_shift, not_is_shift,
    List.map_map, ← List.map_tail, raw_shift hcut, List.getLast?_map]
  split <;> rename_i hlast
  · rw [Option.map_eq_none_iff] at hlast
    rw [hlast]
    rfl
  · obtain ⟨t, ht, rfl⟩ := Option.map_eq_some_iff.1 hlast
    rw [ht, ← List.map_dropLast, flat_shift hcut]
    rfl

theorem paramsOf_shift (ts : List Token) : paramsOf cut' (ts.map (Token.shift k)) = paramsOf cut ts := by
  have hempty : (fun g : List Token => !g.isEmpty) ∘ List.map (Token.shift k) = fun g => !g.isEmpty := by
    funext g
    cases g <;> rfl
  unfold paramsOf
  rw [commaGroups_shift, List.filter_map, hempty, List.map_map]
  exact List.map_congr_left fun g _ => paramOf_shift hcut g

theorem bodyOf_shift (ts : List Token) : bodyOf cut' (ts.map (Token.shift k)) = bodyOf cut ts := by
  induction ts with
  | nil => rfl
  | cons t ts ih =>
    rw [List.map_cons, bodyOf, bodyOf, ih, ← List.map_cons, splitPair_shift, blockText_shift hcut,
      dropSemicolon_shift, raw_shift hcut]
    rfl

theorem accessorsOf_shift (ts : List Token) :
    accessorsOf cut' (ts.map (Token.shift k)) = accessorsOf cut ts := by
  have hmod : isAccessorModifier ∘ Token.shift k = isAccessorModifier := rfl
  have htext : (fun t : Token => t.text) ∘ Token.shift k = fun t => t.text := rfl
  induction hn : ts.length using Nat.strongRecOn generalizing ts with
  | _ n ih =>
    have hrec : ∀ ts' : List Token, ts'.length < n →
        accessorsOf cut' (ts'.map (Token.shift k)) = accessorsOf cut ts' := fun ts' hlen =>
      ih _ hlen ts' rfl
    have hlen := ((List.dropWhile_sublist isAccessorModifier).trans
      (attributesSplit_suffix ts).sublist).length_le
    rw [accessorsOf_eq, accessorsOf_eq]
    simp only [attributesSplit_shift, List.takeWhile_map, List.dropWhile_map, hmod, List.map_map, htext]
    match hrest : (attributesSplit ts).2.dropWhile isAccessorModifier with
    | [] => simp only [List.map_nil]
    | [keyword] => simp only [List.map_cons, List.map_nil, Token.shift_text]
    | keyword :: next :: after =>
      rw [hrest] at hlen
      have hpair := length_splitPair_lt Bytes.leftBrace Bytes.rightBrace next after
      have hskip := ((List.tail_sublist (after.dropWhile fun t : Token => !t.is ";")).trans
        (List.dropWhile_sublist fun t : Token => !t.is ";")).length_le
      have hsplit : splitPair Bytes.leftBrace Bytes.rightBrace (next.shift k :: after.map (Token.shift k))
          = ((splitPair Bytes.leftBrace Bytes.rightBrace (next :: after)).1.map (Token.shift k),
            (splitPair Bytes.leftBrace Bytes.rightBrace (next :: after)).2.map (Token.shift k)) :=
        splitPair_shift k _ _ (next :: after)
      have hnext := hrec (next :: after) (by simp only [List.length_cons] at hlen ⊢; omega)
      simp only [List.length_cons] at hlen
      simp only [List.map_cons] at hnext ⊢
      simp only [hsplit, Token.shift_is, Token.shift_text, not_is_shift, List.dropWhile_map,
        List.takeWhile_map, ← List.map_tail, blockText_shift hcut, raw_shift hcut, hnext]
      rw [hrec after (by omega), hrec _ (by omega), hrec _ (by omega)]

theorem typedMember_shift (m : Member) (ts : List Token) :
    typedMember cut' m (ts.map (Token.shift k)) = typedMember cut m ts := by
  unfold typedMember
  rw [afterType?_shift]
  match afterType? ts with
  | none => rfl
  | some [] => rfl
  | some (word :: rest) =>
    have hafter : (if startsWith ((dottedName word.text rest).2.map (Token.shift k)) "<"
          then (splitPair "<" ">" ((dottedName word.text rest).2.map (Token.shift k))).2
          else (dottedName word.text rest).2.map (Token.shift k))
        = (if startsWith (dottedName word.text rest).2 "<" then (splitPair "<" ">" (dottedName word.text rest).2).2
          else (dottedName word.text rest).2).map (Token.shift k) := by
      rw [startsWith_shift, splitPair_shift]
      split <;> rfl
    simp only [Option.map_some, List.map_cons, Token.shift_isWord, Token.shift_is, Token.shift_text,
      dottedName_shift, hafter, List.length_map, ← List.map_take, flat_shift hcut]
    generalize (if startsWith (dottedName word.text rest).2 "<"
      then (splitPair "<" ">" (dottedName word.text rest).2).2 else (dottedName word.text rest).2) = after
    simp only [startsWith_shift, splitPair_shift, bodyOf_shift hcut, ← List.map_tail, ← List.map_dropLast,
      paramsOf_shift hcut, accessorsOf_shift hcut, dropSemicolon_shift, raw_shift hcut]

/-- **A member in another place.** -/
theorem memberOf_shift (owner : Bytes) (ts : List Token) :
    memberOf cut' owner (ts.map (Token.shift k)) = memberOf cut owner ts := by
  have hmod : isModifier ∘ Token.shift k = isModifier := rfl
  have htext : (fun t : Token => t.text) ∘ Token.shift k = fun t => t.text := rfl
  have hflat : flat cut' ∘ List.map (Token.shift k) = flat cut := funext fun g => flat_shift hcut g
  unfold memberOf
  simp only [attributesSplit_shift, List.takeWhile_map, List.dropWhile_map, hmod, List.map_map, htext, hflat]
  cases (attributesSplit ts).2.dropWhile isModifier with
  | nil => rfl
  | cons t rest =>
    have htype : isWordOf typeWords (t.shift k) = isWordOf typeWords t := rfl
    have hlast := fun marks name => lastWordBefore_shift k marks name (t :: rest)
    have htyped := fun m => typedMember_shift hcut m (t :: rest)
    simp only [List.map_cons] at hlast htyped ⊢
    simp only [htype, hlast, htyped, Token.shift_is, Token.shift_isWord, Token.shift_text, headText_shift,
      List.isEmpty_map, startsWith_shift, splitPair_shift, bodyOf_shift hcut, ← List.map_tail,
      ← List.map_dropLast, paramsOf_shift hcut]

end Texts

/-! ## Members -/

/-- A member without what depends on its place: its text and its column. -/
def Member.bare (m : Member) : Member := { m with text := [], column := 0 }

/-- What members are, or why they cannot be read, without what depends on their places. -/
def bareMembers (ms : Except Fault (List Member)) : Except Fault (List Member) :=
  ms.map (List.map Member.bare)

theorem bareMembers_bind (x : Except Fault (List Member)) (m : Member) (text : Bytes) (column : Nat) :
    bareMembers (x >>= fun ms => return { m with text := text, column := column } :: ms)
      = (bareMembers x).map (m.bare :: ·) := by
  cases x <;> rfl

/-- **Members in another place.** Comments do not count, nor does where the members begin. -/
theorem membersOf_shift {cut cut' : Nat → Nat → Bytes} {k : Nat}
    (hcut : ∀ x y, cut' (x + k) (y + k) = cut x y) (owner : Bytes) (trivia trivia' : List Token)
    (boundary boundary' : Nat) (ts : List Token) :
    bareMembers (membersOf cut' owner trivia' boundary' (ts.map (Token.shift k)))
      = bareMembers (membersOf cut owner trivia boundary ts) := by
  induction hn : ts.length using Nat.strongRecOn generalizing ts boundary boundary' with
  | _ n ih =>
    cases ts with
    | nil => rw [List.map_nil, membersOf, membersOf]
    | cons t rest =>
      have hlt := length_memberSplit_lt t rest
      have hsplit : memberSplit (t.shift k :: rest.map (Token.shift k))
          = ((memberSplit (t :: rest)).1.map (Token.shift k), (memberSplit (t :: rest)).2.map (Token.shift k)) :=
        memberSplitFrom_shift k 0 false false (t :: rest)
      simp only [List.length_cons] at hn
      rw [List.map_cons, membersOf, membersOf, Token.shift_is]
      split
      · exact ih rest.length (by omega) _ _ rest rfl
      · simp only [hsplit, memberOf_shift hcut]
        cases memberOf cut owner (memberSplit (t :: rest)).1 with
        | error e => rfl
        | ok m =>
          -- the members after this one are read alike, wherever this one stops
          have hmore := fun x y => ih (memberSplit (t :: rest)).2.length (by omega) x y _ rfl
          apply Eq.trans (bareMembers_bind _ m _ _)
          rw [hmore]
          exact (bareMembers_bind _ m _ _).symm

/-! ## Classes -/

/-- A class without what stands in front of it and what depends on its place. -/
def Class.bare (c : Class) : Class :=
  { c with modifiers := [], start := 0, keywordStart := 0, members := c.members.map Member.bare }

theorem classOf_header {cut : Nat → Nat → Bytes} {trivia before after : List Token} {keyword : Token}
    {c : Class} (h : classOf cut trivia before keyword after = .ok c) :
    c.modifiers = (before.takeWhile isModifier).reverse.map (·.text) ∧
      c.start = ((before.takeWhile isModifier).getLast?.map (·.start)).getD keyword.start ∧
      c.keywordStart = keyword.start := by
  unfold classOf at h
  simp only [List.head?_reverse] at h
  split at h
  · cases h
    exact ⟨rfl, rfl, rfl⟩
  · obtain ⟨members, -, h⟩ := bind_eq_ok h
    cases h
    exact ⟨rfl, rfl, rfl⟩

/-- A class without what stands in front of it, its members seen through `g`. -/
def Class.through (g : Member → Member) (c : Class) : Class :=
  { c with modifiers := [], start := 0, keywordStart := 0, members := c.members.map g }

/-- **A class in another place**, with other tokens in front of its keyword, when its members are the same
through `g`. -/
theorem classOf_through {cut cut' : Nat → Nat → Bytes} {k : Nat}
    (hcut : ∀ x y, cut' (x + k) (y + k) = cut x y) {g : Member → Member} {trivia trivia' : List Token}
    (hmembers : ∀ (owner : Bytes) (boundary : Nat) (ts : List Token),
      (membersOf cut' owner trivia' (boundary + k) (ts.map (Token.shift k))).map (List.map g)
        = (membersOf cut owner trivia boundary ts).map (List.map g))
    (before before' : List Token) (keyword keyword' : Token) (after : List Token) :
    (classOf cut' trivia' before' keyword' (after.map (Token.shift k))).map (Class.through g)
      = (classOf cut trivia before keyword after).map (Class.through g) := by
  have hin : (fun t : Token => !(t.is Bytes.leftBrace || t.is "where")) ∘ Token.shift k
      = fun t => !(t.is Bytes.leftBrace || t.is "where") := rfl
  have hrest : (if startsWith (after.tail.map (Token.shift k)) "<"
        then (splitPair "<" ">" (after.tail.map (Token.shift k))).2 else after.tail.map (Token.shift k))
      = (if startsWith after.tail "<" then (splitPair "<" ">" after.tail).2 else after.tail).map
          (Token.shift k) := by
    rw [startsWith_shift, splitPair_shift]
    split <;> rfl
  unfold classOf
  simp only [← List.map_tail, hrest, headText_shift]
  generalize (if startsWith after.tail "<" then (splitPair "<" ">" after.tail).2 else after.tail) = rest
  simp only [startsWith_shift, List.takeWhile_map, List.dropWhile_map, hin, not_is_shift, flat_shift hcut]
  cases rest.dropWhile fun t => !t.is Bytes.leftBrace with
  | nil => rfl
  | cons brace inner =>
    have hsplit := splitPair_shift k Bytes.leftBrace Bytes.rightBrace (brace :: inner)
    simp only [List.map_cons] at hsplit ⊢
    simp only [hsplit, ← List.map_tail, ← List.map_dropLast, Token.shift_stop]
    refine map_bind_eq (hmembers _ _ _) fun ms ms' h => congrArg Except.ok ?_
    simp only [Class.through, h]

/-- A class in another place, but for the texts of its members. -/
theorem classOf_shift {cut cut' : Nat → Nat → Bytes} {k : Nat}
    (hcut : ∀ x y, cut' (x + k) (y + k) = cut x y) (trivia trivia' before before' : List Token)
    (keyword keyword' : Token) (after : List Token) :
    (classOf cut' trivia' before' keyword' (after.map (Token.shift k))).map Class.bare
      = (classOf cut trivia before keyword after).map Class.bare :=
  classOf_through hcut (fun owner boundary ts => membersOf_shift hcut owner trivia trivia' boundary _ ts)
    before before' keyword keyword' after

end Flowsmith.Source
