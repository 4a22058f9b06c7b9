import Flowsmith.Proofs.Source.Collapse
import Flowsmith.Proofs.Source.Covered
import Flowsmith.Proofs.Source.Mapped
import Mathlib.Data.List.Forall2

/-!
# What literals and comments cannot change

Two sources whose tokens are alike, comments and preprocessor lines left out, declare the same: texts of
literals, comments and blanks go into the texts of an outline and into nothing else. One text counts,
that of the first namespace, since a namespace without a text is passed over.

* `Class.sketch` : a class without the texts that are cut out of the source;
* `memberOf_map`, `membersOf_map`, `classOf_map` : the same members and the same class;
* `spacesNamed` : no namespace is named by several blanks alone;
* `outline_sketch` : sources with tokens that are alike.
-/

namespace Flowsmith.Source

/-! ## Sketches -/

def Parameter.sketch (p : Parameter) : Parameter := { modifiers := p.modifiers }

/-- The modifiers of an accessor, and whether it has a semicolon in place of a body. -/
def Accessor.sketch (a : Accessor) : Accessor := { a with keyword := [], body := [] }

def Body.sketch : Body → Body
  | .absent => .absent
  | .block _ => .block []
  | .expression _ => .expression []

/-- The kind of a member, with the sketches of its parts. -/
def Shape.sketch : Shape → Shape
  | .other => .other
  | .field => .field
  | .method params body => .method (params.map Parameter.sketch) body.sketch
  | .constructor params body => .constructor (params.map Parameter.sketch) body.sketch
  | .property accessors => .property (accessors.map Accessor.sketch)

/-- The kind, the name and the modifiers of a member, with the sketches of its parts. A declaration that
the scanner does not know has no name. -/
def Member.sketch (m : Member) : Member :=
  { shape := m.shape.sketch, name := if m.shape = .other then [] else m.name, modifiers := m.modifiers }

/-- The name and the modifiers of a class, with the sketches of its members. -/
def Class.sketch (c : Class) : Class :=
  { name := c.name, modifiers := c.modifiers, start := 0, keywordStart := 0,
    members := c.members.map Member.sketch }

/-! ## Declarations -/

section Declarations

variable {f : Token → Token} (hf : ∀ t, Alike t (f t)) (cut cut' : Nat → Nat → Bytes)

include hf

theorem texts_takeWhile_map (words : List Bytes) (ts : List Token) :
    ((ts.map f).takeWhile (isWordOf words)).map (·.text)
      = (ts.takeWhile (isWordOf words)).map (·.text) := by
  rw [List.takeWhile_map, isWordOf_comp hf, List.map_map]
  refine List.map_congr_left fun t ht => (hf t).text ?_
  have hword := List.mem_takeWhile_imp ht
  rw [isWordOf, Bool.and_eq_true] at hword
  exact hword.1

theorem dropWhile_words_map (words : List Bytes) (ts : List Token) :
    (ts.map f).dropWhile (isWordOf words) = (ts.dropWhile (isWordOf words)).map f := by
  rw [List.dropWhile_map, isWordOf_comp hf]

/-- Type parameters, or what stands in their place, are passed over alike. -/
theorem pastTypes_map (ts : List Token) :
    (if startsWith (ts.map f) "<" then (splitPair "<" ">" (ts.map f)).2 else ts.map f)
      = (if startsWith ts "<" then (splitPair "<" ">" ts).2 else ts).map f := by
  rw [startsWith_map hf, splitPair_map hf]
  split <;> rfl

theorem paramOf_map (ts : List Token) :
    (paramOf cut' (ts.map f)).sketch = (paramOf cut ts).sketch := by
  have hmodifiers : ∀ (cut : Nat → Nat → Bytes) (ts : List Token), (paramOf cut ts).modifiers
      = ((attributesSplit ts).2.takeWhile (isWordOf paramWords)).map (·.text) := by
    intro cut ts
    unfold paramOf
    dsimp only
    split <;> rfl
  rw [Parameter.sketch, Parameter.sketch, hmodifiers, hmodifiers, attributesSplit_map hf,
    texts_takeWhile_map hf]

theorem paramsOf_map (ts : List Token) :
    (paramsOf cut' (ts.map f)).map Parameter.sketch = (paramsOf cut ts).map Parameter.sketch := by
  have hempty : (fun g : List Token => !g.isEmpty) ∘ List.map f = fun g => !g.isEmpty := by
    funext g
    cases g <;> rfl
  unfold paramsOf
  rw [commaGroups_map hf, List.filter_map, hempty, List.map_map, List.map_map, List.map_map]
  exact List.map_congr_left fun g _ => paramOf_map hf cut cut' g

omit hf in
/-- Whether a block can be read depends on the number of its tokens. -/
theorem blockText_map (ts : List Token) :
    (blockText cut' (ts.map f)).map (fun _ => ()) = (blockText cut ts).map fun _ => () := by
  match ts with
  | [] => rfl
  | [_] => rfl
  | _ :: _ :: _ => rfl

theorem bodyOf_map (ts : List Token) :
    (bodyOf cut' (ts.map f)).map Body.sketch = (bodyOf cut ts).map Body.sketch := by
  induction ts with
  | nil => rfl
  | cons t ts ih =>
    rw [List.map_cons, bodyOf, bodyOf, (hf t).is, (hf t).is, (hf t).is, ← List.map_cons,
      splitPair_map hf]
    split
    · have hblock := blockText_map (f := f) cut cut'
        (splitPair Bytes.leftBrace Bytes.rightBrace (t :: ts)).1
      exact map_bind_eq hblock fun _ _ _ => rfl
    · split
      · rfl
      · split
        · rfl
        · exact ih

theorem accessorsOf_map (ts : List Token) :
    (accessorsOf cut' (ts.map f)).map (List.map Accessor.sketch)
      = (accessorsOf cut ts).map (List.map Accessor.sketch) := by
  induction hn : ts.length using Nat.strongRecOn generalizing ts with
  | _ n ih =>
    have hcons : ∀ (ts' : List Token) (a a' : Accessor), ts'.length < n → a'.sketch = a.sketch →
        ((accessorsOf cut' (ts'.map f)).map (a' :: ·)).map (List.map Accessor.sketch)
          = ((accessorsOf cut ts').map (a :: ·)).map (List.map Accessor.sketch) := by
      intro ts' a a' hlen ha
      refine map_bind_eq (ih _ hlen ts' rfl) fun as as' has => congrArg Except.ok ?_
      rw [List.map_cons, List.map_cons, ha, has]
    have hlen := ((List.dropWhile_sublist isAccessorModifier).trans
      (attributesSplit_suffix ts).sublist).length_le
    have hmods : ((ts.map f |> attributesSplit).2.takeWhile isAccessorModifier).map (·.text)
        = ((attributesSplit ts).2.takeWhile isAccessorModifier).map (·.text) := by
      rw [attributesSplit_map hf]
      exact texts_takeWhile_map hf _ _
    have hrest : (attributesSplit (ts.map f)).2.dropWhile isAccessorModifier
        = ((attributesSplit ts).2.dropWhile isAccessorModifier).map f := by
      rw [attributesSplit_map hf]
      exact dropWhile_words_map hf _ _
    rw [accessorsOf_eq, accessorsOf_eq]
    simp only [hmods, hrest]
    match hbare : (attributesSplit ts).2.dropWhile isAccessorModifier with
    | [] => rfl
    | [keyword] => rfl
    | keyword :: next :: after =>
      rw [hbare] at hlen
      have hpair := length_splitPair_lt Bytes.leftBrace Bytes.rightBrace next after
      have hskip := ((List.tail_sublist (after.dropWhile fun t : Token => !t.is ";")).trans
        (List.dropWhile_sublist fun t : Token => !t.is ";")).length_le
      simp only [List.length_cons] at hlen
      simp only [List.map_cons, (hf next).is]
      rw [← List.map_cons, splitPair_map hf]
      split
      · exact hcons _ _ _ (by omega) rfl
      · split
        · refine map_bind_eq (blockText_map (f := f) cut cut' _) fun body body' _ => ?_
          exact hcons _ _ _ (by omega) rfl
        · split
          · rw [List.dropWhile_map, not_is_comp hf, ← List.map_tail]
            exact hcons _ _ _ (by omega) rfl
          · exact hcons (next :: after) _ _ (by simp only [List.length_cons]; omega) rfl

/-! ## Members -/

omit hf in
/-- The name of a declaration that the scanner does not know is no part of its sketch. -/
theorem sketch_other {m m' : Member} (hm : m.shape = .other) (hm' : m'.shape = .other)
    (hmodifiers : m'.modifiers = m.modifiers) : m'.sketch = m.sketch := by
  simp only [Member.sketch, hm, hm', hmodifiers, if_true]

theorem typedMember_map {m m' : Member} (ts : List Token) (hm : m.shape = .other)
    (hm' : m'.shape = .other) (hmodifiers : m'.modifiers = m.modifiers) :
    (typedMember cut' m' (ts.map f)).map Member.sketch = (typedMember cut m ts).map Member.sketch := by
  have hsame := sketch_other hm hm' hmodifiers
  unfold typedMember
  rw [afterType?_map hf]
  match afterType? ts with
  | none => exact congrArg Except.ok hsame
  | some [] => exact congrArg Except.ok hsame
  | some (word :: rest) =>
    have hafter := pastTypes_map hf (dottedName word.text rest).2
    simp only [Option.map_some, List.map_cons, (hf word).isWord, (hf word).is]
    split
    · exact congrArg Except.ok hsame
    · rename_i hword
      have htext := (hf word).text (by simpa using hword)
      split
      · exact congrArg Except.ok (sketch_other hm hm' hmodifiers)
      · simp only [htext, dottedName_map hf, hafter]
        generalize (if startsWith (dottedName word.text rest).2 "<"
          then (splitPair "<" ">" (dottedName word.text rest).2).2
          else (dottedName word.text rest).2) = after
        simp only [startsWith_map hf, splitPair_map hf, ← List.map_tail, ← List.map_dropLast]
        split
        · refine map_bind_eq (bodyOf_map hf cut cut' _) fun body body' hbody => congrArg Except.ok ?_
          simp only [Member.sketch, Shape.sketch, hmodifiers, hbody, paramsOf_map hf cut cut']
          rfl
        · split
          · refine map_bind_eq (accessorsOf_map hf cut cut' _) fun as as' has => congrArg Except.ok ?_
            simp only [Member.sketch, Shape.sketch, hmodifiers, has]
            rfl
          · split
            · refine congrArg Except.ok ?_
              simp only [Member.sketch, Shape.sketch, hmodifiers]
              rfl
            · refine congrArg Except.ok ?_
              simp only [Member.sketch, Shape.sketch, hmodifiers]

theorem memberOf_map (owner : Bytes) (ts : List Token) :
    (memberOf cut' owner (ts.map f)).map Member.sketch = (memberOf cut owner ts).map Member.sketch := by
  have hmods : ((attributesSplit (ts.map f)).2.takeWhile isModifier).map (·.text)
      = ((attributesSplit ts).2.takeWhile isModifier).map (·.text) := by
    rw [attributesSplit_map hf]
    exact texts_takeWhile_map hf _ _
  have hrest : (attributesSplit (ts.map f)).2.dropWhile isModifier
      = ((attributesSplit ts).2.dropWhile isModifier).map f := by
    rw [attributesSplit_map hf]
    exact dropWhile_words_map hf _ _
  unfold memberOf
  simp only [hrest]
  cases (attributesSplit ts).2.dropWhile isModifier with
  | nil => exact congrArg Except.ok (sketch_other rfl rfl hmods)
  | cons t rest =>
    have howner : ((f t).isWord && (f t).text == owner) = (t.isWord && t.text == owner) := by
      rw [(hf t).isWord]
      cases hword : t.isWord with
      | false => rfl
      | true => rw [(hf t).text hword]
    simp only [List.map_cons, (hf t).isWordOf, (hf t).is, howner, startsWith_map hf, splitPair_map hf]
    split
    · exact congrArg Except.ok (sketch_other rfl rfl hmods)
    · split
      · exact congrArg Except.ok (sketch_other rfl rfl hmods)
      · split
        · exact congrArg Except.ok (sketch_other rfl rfl hmods)
        · split
          · rw [← List.map_tail, ← List.map_dropLast]
            refine map_bind_eq (bodyOf_map hf cut cut' _) fun body body' hbody => congrArg Except.ok ?_
            simp only [Member.sketch, Shape.sketch, hmods, hbody, paramsOf_map hf cut cut']
            rfl
          · rw [← List.map_cons]
            exact typedMember_map hf cut cut' (t :: rest) rfl rfl hmods

theorem membersOf_map (owner : Bytes) (trivia trivia' : List Token) (boundary boundary' : Nat)
    (ts : List Token) :
    (membersOf cut' owner trivia' boundary' (ts.map f)).map (List.map Member.sketch)
      = (membersOf cut owner trivia boundary ts).map (List.map Member.sketch) := by
  induction hn : ts.length using Nat.strongRecOn generalizing ts boundary boundary' with
  | _ n ih =>
    cases ts with
    | nil => rw [List.map_nil, membersOf, membersOf]
    | cons t rest =>
      have hlt := length_memberSplit_lt t rest
      have hsplit : memberSplit (f t :: rest.map f)
          = ((memberSplit (t :: rest)).1.map f, (memberSplit (t :: rest)).2.map f) :=
        memberSplitFrom_map hf 0 false false (t :: rest)
      simp only [List.length_cons] at hn
      rw [List.map_cons, membersOf, membersOf, (hf t).is]
      split
      · exact ih rest.length (by omega) _ _ rest rfl
      · simp only [hsplit]
        refine map_bind_eq (memberOf_map hf cut cut' owner _) fun m m' hm => ?_
        refine map_bind_eq (ih _ (by omega) _ _ _ rfl) fun ms ms' hms => congrArg Except.ok ?_
        rw [List.map_cons, List.map_cons, hms]
        exact congrArg (· :: _) hm

/-! ## Classes -/

theorem beginsClass_map (before after : List Token) :
    beginsClass (before.map f) (after.map f) = beginsClass before after := by
  unfold beginsClass
  rw [any_isWord_map hf]
  cases before with
  | nil => rfl
  | cons t before => simp only [List.map_cons, List.head?_cons, Option.any_some, (hf t).is]

theorem classOf_map {after : List Token} (hafter : after.head?.any (·.isWord) = true)
    (trivia trivia' before : List Token) (keyword keyword' : Token) :
    (classOf cut' trivia' (before.map f) keyword' (after.map f)).map Class.sketch
      = (classOf cut trivia before keyword after).map Class.sketch := by
  have hname : headText (after.map f) = headText after := by
    cases after with
    | nil => rfl
    | cons t rest => exact (hf t).text hafter
  have hmods : ((before.map f).takeWhile isModifier).reverse.map (·.text)
      = (before.takeWhile isModifier).reverse.map (·.text) := by
    rw [List.map_reverse, List.map_reverse]
    exact congrArg List.reverse (texts_takeWhile_map hf modifierWords before)
  have hrest := pastTypes_map hf after.tail
  unfold classOf
  simp only [← List.map_tail, hrest, hname, hmods]
  generalize (if startsWith after.tail "<" then (splitPair "<" ">" after.tail).2 else after.tail) = rest
  simp only [startsWith_map hf, List.dropWhile_map, not_is_comp hf]
  cases rest.dropWhile fun t => !t.is Bytes.leftBrace with
  | nil => rfl
  | cons brace inner =>
    have hsplit := splitPair_map hf Bytes.leftBrace Bytes.rightBrace (brace :: inner)
    simp only [List.map_cons] at hsplit ⊢
    simp only [hsplit, ← List.map_tail, ← List.map_dropLast]
    refine map_bind_eq (membersOf_map hf cut cut' _ trivia trivia' _ _ _) fun ms ms' h => ?_
    refine congrArg Except.ok ?_
    simp only [Class.sketch, h]

end Declarations

/-! ## Namespaces -/

def spaceName (ts : List Token) : List Token :=
  ts.takeWhile fun t => !(t.is Bytes.leftBrace || t.is ";")

/-- The class of an outline does not depend on what is cut out of the source, but for the texts of
namespaces: whether there is one. -/
theorem outlineFrom_map {f : Token → Token} (hf : ∀ t, Alike t (f t)) {cut cut' : Nat → Nat → Bytes}
    (trivia trivia' : List Token) {found found' : Outline} (before : List Token) {ts : List Token}
    (hclass : found.class? = none) (hclass' : found'.class? = none)
    (hempty : found'.space.isEmpty = found.space.isEmpty)
    (hspace : ∀ t rest, t :: rest <:+ ts → t.is "namespace" = true →
      (flat cut' ((spaceName rest).map f)).isEmpty = (flat cut (spaceName rest)).isEmpty) :
    (outlineFrom cut' trivia' found' (before.map f) (ts.map f)).map (·.class?.map Class.sketch)
      = (outlineFrom cut trivia found before ts).map (·.class?.map Class.sketch) := by
  have hback : ∀ (n : Nat) (t : Token) (rest before : List Token),
      ((rest.map f).take n).reverse ++ f t :: before.map f = ((rest.take n).reverse ++ t :: before).map f := by
    intro n t rest before
    rw [List.map_append, List.map_reverse, List.map_take, List.map_cons]
  fun_induction outlineFrom cut trivia found before ts generalizing found' with
  | case1 found before =>
    rw [List.map_nil, outlineFrom]
    exact congrArg Except.ok (by simp only [hclass, hclass'])
  | case2 found before t rest husing target =>
    rename_i ih
    have htarget : (rest.map f).takeWhile (!·.is ";") = target.map f := by
      rw [List.takeWhile_map, not_is_comp hf]
    rw [List.map_cons, outlineFrom, (hf t).is, any_isWord_map hf, if_pos husing]
    simp only [htarget, List.length_map, hback, ← List.map_drop]
    exact ih hclass hclass' hempty fun u more hu => hspace u more
      (hu.trans ((List.drop_suffix _ _).trans (List.suffix_cons _ _)))
  | case3 found before t rest husing hname name =>
    rename_i ih
    have hnamed : (rest.map f).takeWhile (fun t => !(t.is Bytes.leftBrace || t.is ";")) = name.map f := by
      rw [List.takeWhile_map]
      exact congrArg (fun p => List.map f (List.takeWhile p rest))
        (funext fun t => by simp only [Function.comp, (hf t).is])
    rw [List.map_cons, outlineFrom, (hf t).is, any_isWord_map hf, if_neg husing, (hf t).is, hempty,
      if_pos hname]
    simp only [hnamed, List.length_map, hback, ← List.map_drop]
    rw [Bool.and_eq_true] at hname
    exact ih hclass hclass' (hspace t rest List.suffix_rfl hname.1) fun u more hu => hspace u more
      (hu.trans ((List.drop_suffix _ _).trans (List.suffix_cons _ _)))
  | case4 found before t rest husing hname hclasses =>
    rw [List.map_cons, outlineFrom, (hf t).is, any_isWord_map hf, if_neg husing, (hf t).is, hempty,
      if_neg hname, (hf t).is, beginsClass_map hf, if_pos hclasses]
    simp only [Bool.and_eq_true, beginsClass] at hclasses
    refine map_bind_eq (classOf_map hf cut cut' hclasses.2.1 trivia trivia' before t (f t)) fun c c' hc => ?_
    exact congrArg (Except.ok ∘ some) hc
  | case5 found before t rest husing hname hclasses ih =>
    rw [List.map_cons, outlineFrom, (hf t).is, any_isWord_map hf, if_neg husing, (hf t).is, hempty,
      if_neg hname, (hf t).is, beginsClass_map hf, if_neg hclasses, ← List.map_cons]
    exact ih hclass hclass' hempty fun u more hu => hspace u more (hu.trans (List.suffix_cons _ _))

/-! ## Texts of blanks -/

theorem Alike.isBlankMark {t t' : Token} (h : Alike t t') : t'.isBlankMark = t.isBlankMark := by
  unfold Token.isBlankMark
  rw [h.1]
  cases hk : t.kind == TokenKind.mark with
  | false => rfl
  | true => rw [h.2 (Or.inr (by simpa using hk))]

/-- A text without words consists of blanks. -/
theorem blank_of_collapse {s : Bytes} (h : s.collapse = []) : Blank s := by
  rcases (respaced_words s).2 with ⟨-, hblank⟩ | ⟨hne, -⟩
  · exact hblank
  · have hword := unbroken_of_wordsFrom s [] fun a b hab hb => by
      exact absurd (List.append_eq_nil_iff.1 hab.symm).2 hb
    unfold Bytes.collapse Bytes.words at h
    cases hws : Bytes.wordsFrom [] s with
    | nil => exact absurd hws hne
    | cons w ws =>
      rw [hws] at h hword
      have hw := (hword w List.mem_cons_self).1
      cases ws <;> simp [Bytes.joinWith, hw] at h

theorem flat_ne_nil {src : Bytes} {pre g post : List Token}
    (hsolid : solid (tokens src) = pre ++ g ++ post) {t : Token} (ht : t ∈ g)
    (hmark : t.isBlankMark = false) : flat src.slice g ≠ [] := by
  intro hflat
  have hmem : ∀ u ∈ pre ++ g ++ post, u ∈ tokens src := fun u hu => (mem_solid.1 (hsolid ▸ hu)).1
  obtain ⟨a, ha⟩ : ∃ a, g.head? = some a := by
    cases g with
    | nil => cases ht
    | cons a g => exact ⟨a, rfl⟩
  obtain ⟨b, hb⟩ : ∃ b, g.getLast? = some b := by
    rw [← Option.isSome_iff_exists, List.getLast?_isSome]
    rintro rfl
    cases ht
  obtain ⟨-, hin, -⟩ := solid_bounds hsolid ha hb
  have haMem : a ∈ tokens src := hmem a (by simp [List.mem_of_head? ha])
  have hblank : Blank (src.slice a.start b.stop) := by
    rw [flat, raw, ha, hb] at hflat
    exact blank_of_collapse hflat
  -- the tokens from the first one of the group on are those of blanks and of what follows them
  obtain ⟨fresh, hdrop⟩ := tokensFrom_drop src 0 true a.start (Nat.zero_le _) (clean_of_mem haMem).1
  have hcut : src.drop (a.start - 0)
      = src.slice a.start b.stop ++ (src.drop a.start).drop (b.stop - a.start) := by
    rw [Nat.sub_zero, Bytes.slice, List.take_append_drop]
  obtain ⟨marks, fresh', hmarks, hall⟩ := tokensFrom_blank hblank
    ((src.drop a.start).drop (b.stop - a.start)) a.start fresh
  rw [hcut, hmarks] at hdrop
  have htin := hin t ht
  have htMem : t ∈ tokens src := hmem t (by simp [ht])
  have htPos := (le_start_of_mem htMem).2
  have hcase : t ∈ marks ++ tokensFrom (a.start + (src.slice a.start b.stop).length) fresh' _ :=
    hdrop ▸ List.mem_filter.2 ⟨htMem, by simpa using htin.1⟩
  rcases List.mem_append.1 hcase with hm | hafter
  · rw [hall t hm] at hmark
    cases hmark
  · have hle := (le_start_of_mem hafter).1
    have hlast := (lies_of_mem (hmem b (by simp [List.mem_of_getLast? hb]))).within
    rw [Bytes.slice, List.length_take, List.length_drop] at hle
    omega

/-! ## Sources with tokens that are alike -/

/-- No word `namespace` is followed by two blanks of several bytes, or more, and by nothing else that
could name a namespace. -/
def spacesNamed : List Token → Bool
  | [] => true
  | t :: ts =>
    (!t.is "namespace" || decide ((spaceName ts).length ≤ 1) || !(spaceName ts).all (·.isBlankMark))
      && spacesNamed ts

theorem of_spacesNamed {t : Token} {rest ts : List Token} (h : spacesNamed ts = true)
    (hsuffix : t :: rest <:+ ts) (ht : t.is "namespace" = true) :
    (spaceName rest).length ≤ 1 ∨ ∃ u ∈ spaceName rest, u.isBlankMark = false := by
  induction ts with
  | nil => cases List.suffix_nil.1 hsuffix
  | cons u ts ih =>
    rw [spacesNamed, Bool.and_eq_true] at h
    rcases List.suffix_cons_iff.1 hsuffix with heq | hsuffix
    · obtain ⟨rfl, rfl⟩ := List.cons.inj heq
      simpa [ht] using h.1
    · exact ih h.2 hsuffix

/-- Tokens that differ from each other are taken by a map to tokens that are alike. -/
theorem exists_map {ts ts' : List Token} (hnodup : ts.Nodup) (h : List.Forall₂ Alike ts ts') :
    ∃ f : Token → Token, (∀ t, Alike t (f t)) ∧ ts.map f = ts' := by
  induction h with
  | nil => exact ⟨id, alike_refl, rfl⟩
  | @cons t t' ts ts' ht _ ih =>
    obtain ⟨hfresh, hnodup⟩ := List.nodup_cons.1 hnodup
    obtain ⟨f, hf, rfl⟩ := ih hnodup
    refine ⟨Function.update f t t', fun u => ?_, ?_⟩
    · by_cases hu : u = t
      · rw [hu, Function.update_self]
        exact ht
      · rw [Function.update_of_ne hu]
        exact hf u
    · rw [List.map_cons, Function.update_self]
      refine congrArg _ (List.map_congr_left fun u hu => Function.update_of_ne ?_ _ _)
      rintro rfl
      exact hfresh hu

theorem nodup_solid (src : Bytes) : (solid (tokens src)).Nodup := by
  refine (sorted_solid src).imp_of_mem fun {t u} ht _ hle heq => ?_
  have := le_start_of_mem (mem_solid.1 ht).1
  rw [← heq] at hle
  omega

/-- **Texts of literals and comments do not matter.** Two sources have the same class but for the texts
cut out of them, or neither can be read, when their tokens without comments and preprocessor lines
have the same kinds and the same texts at words and marks, and no namespace is named by several
blanks alone. -/
theorem outline_sketch {s s' : Bytes} (hts : List.Forall₂ Alike (solid (tokens s)) (solid (tokens s')))
    (hnamed : spacesNamed (solid (tokens s)) = true) :
    (outline s').map (·.class?.map Class.sketch) = (outline s).map (·.class?.map Class.sketch) := by
  obtain ⟨f, hf, hmap⟩ := exists_map (nodup_solid s) hts
  have hspace : ∀ t rest, t :: rest <:+ solid (tokens s) → t.is "namespace" = true →
      (flat s'.slice ((spaceName rest).map f)).isEmpty = (flat s.slice (spaceName rest)).isEmpty := by
    intro t rest hsuffix ht
    obtain ⟨pre, hpre⟩ := hsuffix
    obtain ⟨post, hpost⟩ := List.takeWhile_prefix (l := rest) fun t => !(t.is Bytes.leftBrace || t.is ";")
    have hparts : solid (tokens s) = (pre ++ [t]) ++ spaceName rest ++ post := by
      rw [← hpre, spaceName, List.append_assoc, hpost]
      simp
    have hparts' : solid (tokens s') = (pre ++ [t]).map f ++ (spaceName rest).map f ++ post.map f := by
      rw [← hmap, hparts, List.map_append, List.map_append]
    by_cases hblank : ∃ u ∈ spaceName rest, u.isBlankMark = false
    · -- both texts hold what is no blank
      obtain ⟨u, hu, hmark⟩ := hblank
      have hne := flat_ne_nil hparts hu hmark
      have hne' := flat_ne_nil hparts' (List.mem_map_of_mem hu) ((hf u).isBlankMark.trans hmark)
      rw [List.isEmpty_eq_false_iff.2 hne, List.isEmpty_eq_false_iff.2 hne']
    · -- one mark has the same text in both sources
      have hlen := (of_spacesNamed hnamed ⟨pre, hpre⟩ ht).resolve_right hblank
      match hg : spaceName rest with
      | [] => rfl
      | [u] =>
        have hu : u ∈ tokens s := (mem_solid.1 (hparts ▸ by simp [hg])).1
        have hu' : f u ∈ tokens s' := (mem_solid.1 (hparts' ▸ by simp [hg])).1
        have hmark : u.isBlankMark = true := by
          by_contra hmark
          exact hblank ⟨u, by simp [hg], by simpa using hmark⟩
        have htext : (f u).text = u.text := (hf u).2 (Or.inr (by
          simp only [Token.isBlankMark, Bool.and_eq_true, beq_iff_eq] at hmark
          exact hmark.1))
        have hraw : raw s'.slice [f u] = raw s.slice [u] := by
          simp only [raw, List.head?_cons, List.getLast?_singleton]
          rw [← (lies_of_mem hu').text, ← (lies_of_mem hu).text, htext]
        rw [List.map_cons, List.map_nil, flat, flat, hraw]
      | u :: v :: g =>
        rw [hg] at hlen
        simp at hlen
  unfold outline
  show (outlineFrom s'.slice _ {} ([].map f) (solid (tokens s'))).map _
    = (outlineFrom s.slice _ {} [] (solid (tokens s))).map _
  rw [← hmap]
  exact outlineFrom_map hf _ _ [] rfl rfl rfl hspace

instance (t t' : Token) : Decidable (Alike t t') := inferInstanceAs (Decidable (_ ∧ (_ → _)))

/-- A class with a method, the literal of which holds a brace or not, and comments with braces or not. -/
def quoting (comment literal : Bytes) : Bytes :=
  Bytes.joinWith [0x20] ["class A \x7b void F(ref int x) \x7b", comment, "G(", literal, "); \x7d int P => 1; \x7d"]

theorem outline_sketch_quoting :
    List.Forall₂ Alike (solid (tokens (quoting "// \x7b\n" "\"\x7d\"")))
        (solid (tokens (quoting "/* \x7d */" "\"\""))) ∧
      (outline (quoting "/* \x7d */" "\"\"")).map (·.class?.map Class.sketch)
        = (outline (quoting "// \x7b\n" "\"\x7d\"")).map (·.class?.map Class.sketch) := by
  have hts : List.Forall₂ Alike (solid (tokens (quoting "// \x7b\n" "\"\x7d\"")))
      (solid (tokens (quoting "/* \x7d */" "\"\""))) := by
    rw [quoting, quoting]
    repeat rw [Bytes.ofString_ofList]
    decide +kernel
  exact ⟨hts, outline_sketch hts (by decide +kernel)⟩

/-- A namespace that is named by two blanks of several bytes with a comment between them or not, and
another namespace without a name. -/
def unnamed (comment : Bytes) : Bytes :=
  Bytes.joinWith [0x20] ["namespace \u00a0", comment, "\u00a0 \x7b\x7d namespace class A \x7b\x7d"]

/-- Without the comment the first namespace has no text, and the second one is taken for it, with the
class that follows. -/
theorem outline_swayed : ¬ ∀ (s s' : Bytes) (o o' : Outline),
    List.Forall₂ Alike (solid (tokens s)) (solid (tokens s')) → outline s = .ok o → outline s' = .ok o' →
      o'.class?.map Class.sketch = o.class?.map Class.sketch := by
  intro h
  have hts : List.Forall₂ Alike (solid (tokens (unnamed "/**/"))) (solid (tokens (unnamed []))) := by
    decide +kernel
  let read : Class := { name := "A", modifiers := [], start := 34, keywordStart := 34 }
  have hread : outline (unnamed "/**/") = .ok { space := "/**/", class? := some read } := by
    decide +kernel
  have hread' : outline (unnamed []) = .ok { space := "class A" } := by decide +kernel
  cases h _ _ _ _ hts hread hread'

end Flowsmith.Source
