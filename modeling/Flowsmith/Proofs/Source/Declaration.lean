import Flowsmith.Proofs.Outcome
import Flowsmith.Proofs.Source.Thin

/-!
# Methods and properties

* `Headed` : a declaration with a type and a name;
* `memberOf_inv` : every method and every property is headed;
* `Headed.method`, `Headed.property` : a headed declaration is a method or a property;
* `memberOf_thin` : a method is a method of the same name in texts that differ in their blanks.
-/

namespace Flowsmith.Source

/-- A declaration that has a type and goes on with a word. -/
structure Headed (ts type : List Token) (word : Token) (rest : List Token) : Prop where
  tokens_eq : (attributesSplit ts).2.dropWhile isModifier = type ++ word :: rest
  type_eq : afterType? (type ++ word :: rest) = some (word :: rest)
  isWord : word.isWord = true
  named : word.is "this" = false ∧ word.is "operator" = false
  first : ∀ t, type.head? = some t →
    isWordOf typeWords t = false ∧ t.is "event" = false ∧ t.is "~" = false

/-- The tokens after the name and the type parameters of a declaration. -/
def afterName (word : Token) (rest : List Token) : List Token :=
  let named := dottedName word.text rest
  if startsWith named.2 "<" then (splitPair "<" ">" named.2).2 else named.2

def Shape.isCarried : Shape → Bool
  | .method _ _ => true
  | .property _ => true
  | _ => false

theorem afterType?_suffix {ts rest : List Token} (h : afterType? ts = some rest) :
    ∃ type, ts = type ++ rest ∧ type ≠ [] := by
  cases ts with
  | nil => cases h
  | cons t ts =>
    have hsuffix : rest <:+ ts := by
      rw [afterType?] at h
      split at h
      · cases h
        refine (afterTypeMarks_suffix _).trans ?_
        have hlt := length_splitPair_lt "(" ")" t ts
        rcases List.suffix_cons_iff.1 (splitPair_suffix "(" ")" (t :: ts)) with heq | hs
        · rw [heq, List.length_cons] at hlt
          omega
        · exact hs
      · split at h
        · cases h
          exact (afterTypeMarks_suffix _).trans (afterTypeName_suffix _)
        · cases h
    obtain ⟨type, rfl⟩ := hsuffix
    exact ⟨t :: type, rfl, by simp⟩

theorem typedMember_inv {cut : Nat → Nat → Bytes} {m m' : Member} {ts : List Token}
    (h : typedMember cut m ts = .ok m') (hm : m.shape = .other) (hc : m'.shape.isCarried = true) :
    ∃ type word rest, ts = type ++ word :: rest ∧ type ≠ [] ∧
      afterType? (type ++ word :: rest) = some (word :: rest) ∧ word.isWord = true ∧
      (word.is "this" = false ∧ word.is "operator" = false) ∧
      m'.name = (dottedName word.text rest).1 ∧ m'.type = flat cut type ∧ m'.modifiers = m.modifiers ∧
      ((startsWith (afterName word rest) "(" = true ∧
        ∃ body, bodyOf cut (splitPair "(" ")" (afterName word rest)).2 = .ok body ∧
          m'.shape = .method (paramsOf cut (splitPair "(" ")" (afterName word rest)).1.tail.dropLast) body) ∨
      ∃ accessors, m'.shape = .property accessors) := by
  unfold typedMember at h
  split at h
  · cases h
    rw [hm] at hc
    cases hc
  · cases h
    rw [hm] at hc
    cases hc
  · rename_i word rest hafter
    split at h
    · cases h
      rw [hm] at hc
      cases hc
    · rename_i hword
      split at h
      · cases h
        rw [hm] at hc
        cases hc
      · rename_i hthis
        obtain ⟨type, rfl, htype⟩ := afterType?_suffix hafter
        have htake : (type ++ word :: rest).take ((type ++ word :: rest).length - (rest.length + 1)) = type := by
          rw [List.length_append, List.length_cons, Nat.add_sub_cancel, List.take_left]
        have hnot : word.is "this" = false ∧ word.is "operator" = false := by simpa using hthis
        refine ⟨type, word, rest, rfl, htype, hafter, by simpa using hword, hnot, ?_⟩
        simp only [htake] at h
        rw [show (if startsWith (dottedName word.text rest).2 "<" = true then
          (splitPair "<" ">" (dottedName word.text rest).2).2 else (dottedName word.text rest).2)
          = afterName word rest from rfl] at h
        split at h
        · rename_i hparen
          obtain ⟨body, hbody, h⟩ := bind_eq_ok h
          cases h
          exact ⟨rfl, rfl, rfl, Or.inl ⟨hparen, body, hbody, rfl⟩⟩
        · split at h
          · obtain ⟨accessors, _, h⟩ := bind_eq_ok h
            cases h
            exact ⟨rfl, rfl, rfl, Or.inr ⟨_, rfl⟩⟩
          · split at h
            · cases h
              exact ⟨rfl, rfl, rfl, Or.inr ⟨_, rfl⟩⟩
            · cases h
              cases hc

/-- **Methods and properties.** They are headed, and what they are follows from the tokens after their
names. -/
theorem memberOf_inv {cut : Nat → Nat → Bytes} {owner : Bytes} {m : Member} {ts : List Token}
    (h : memberOf cut owner ts = .ok m) (hc : m.shape.isCarried = true) :
    ∃ type word rest, Headed ts type word rest ∧
      m.name = (dottedName word.text rest).1 ∧ m.type = flat cut type ∧
      m.modifiers = ((attributesSplit ts).2.takeWhile isModifier).map (·.text) ∧
      ((startsWith (afterName word rest) "(" = true ∧
        ∃ body, bodyOf cut (splitPair "(" ")" (afterName word rest)).2 = .ok body ∧
          m.shape = .method (paramsOf cut (splitPair "(" ")" (afterName word rest)).1.tail.dropLast) body) ∨
      ∃ accessors, m.shape = .property accessors) := by
  unfold memberOf at h
  simp only at h
  split at h
  · cases h
    cases hc
  · rename_i t rest htokens
    split at h
    · cases h
      cases hc
    · rename_i htype
      split at h
      · cases h
        cases hc
      · rename_i hevent
        split at h
        · cases h
          cases hc
        · rename_i htilde
          split at h
          · obtain ⟨body, _, h⟩ := bind_eq_ok h
            cases h
            cases hc
          · obtain ⟨type, word, rest', heq, hne, htypeEq, hword, hnamed, hname, hflat, hmods, hshape⟩ :=
              typedMember_inv h rfl hc
            refine ⟨type, word, rest', ⟨htokens.trans heq, htypeEq, hword, hnamed, ?_⟩, hname, hflat,
              hmods, hshape⟩
            intro x hx
            obtain ⟨y, type, rfl⟩ := List.exists_cons_of_ne_nil hne
            cases hx
            rw [← (List.cons.inj heq).1]
            exact ⟨by simpa using htype, by simpa using hevent, by simpa using htilde⟩

theorem Headed.type_ne_nil {ts type rest : List Token} {word : Token} (h : Headed ts type word rest) :
    type ≠ [] := by
  obtain ⟨type', heq, hne⟩ := afterType?_suffix h.type_eq
  obtain rfl := List.append_cancel_right heq
  exact hne

theorem startsWith_of_afterType? {t word : Token} {ts rest : List Token}
    (h : afterType? (t :: ts) = some (word :: rest)) (ht : t.isName = true) (hw : word.isName = true) :
    startsWith ts "(" = false := by
  cases hs : startsWith ts "(" with
  | false => rfl
  | true =>
    exfalso
    cases ts with
    | nil => cases hs
    | cons p ts =>
      have hp : p.is "(" = true := hs
      have hname : afterTypeName (p :: ts) = p :: ts := by
        rw [afterTypeName, if_neg (by simp [Token.not_is hp (show ("(" : Bytes) ≠ "." by decide)]),
          if_neg (by simp [Token.not_is hp (show ("(" : Bytes) ≠ ":" by decide)]),
          if_neg (by simp [Token.not_is hp (show ("(" : Bytes) ≠ "<" by decide)])]
      have hmarks : afterTypeMarks (p :: ts) = p :: ts := by
        rw [afterTypeMarks, if_neg (by simp [Token.not_is hp (show ("(" : Bytes) ≠ "?" by decide),
            Token.not_is hp (show ("(" : Bytes) ≠ "*" by decide)]),
          if_neg (by simp [Token.not_is hp (show ("(" : Bytes) ≠ "[" by decide)])]
      rw [afterType?, if_neg (by simp [isName_not_is ht (show ("(" : Bytes) ∈ markTexts by simp [markTexts])]),
        if_pos (Token.isWord_of_isName ht), hname, hmarks] at h
      obtain ⟨rfl, rfl⟩ := List.cons.inj (Option.some.inj h)
      rw [isName_not_is hw (by simp [markTexts])] at hp
      cases hp

/-- What is read of a declaration from its attributes, modifiers, type and name. -/
def headOf (cut : Nat → Nat → Bytes) (ts type : List Token) (name : Bytes) : Member where
  name := name
  type := flat cut type
  attributes := (attributesSplit ts).1.map (flat cut)
  modifiers := ((attributesSplit ts).2.takeWhile isModifier).map (·.text)

section

variable {ts type rest : List Token} {word : Token} (h : Headed ts type word rest)
  (hsound : ∀ t ∈ type ++ [word], t.isWord = true → t.isName = true) (cut : Nat → Nat → Bytes)
  (owner : Bytes)

include h hsound

/-- A headed declaration is one with a type and a name; what comes after its name decides on its shape. -/
theorem Headed.memberOf : Source.memberOf cut owner ts =
    let m := headOf cut ts type (dottedName word.text rest).1
    let after := afterName word rest
    if startsWith after "(" then
      (bodyOf cut (splitPair "(" ")" after).2).map fun body =>
        { m with shape := .method (paramsOf cut (splitPair "(" ")" after).1.tail.dropLast) body }
    else if startsWith after Bytes.leftBrace then
      (accessorsOf cut (splitPair Bytes.leftBrace Bytes.rightBrace after).1.tail.dropLast).map
        fun accessors => { m with shape := .property accessors }
    else if startsWith after "=>" then
      .ok { m with shape := .property [{ keyword := "get", body := raw cut (dropSemicolon after.tail) }] }
    else .ok { m with shape := .field } := by
  obtain ⟨t, more, htype⟩ := List.exists_cons_of_ne_nil h.type_ne_nil
  obtain ⟨h₁, h₂, h₃⟩ := h.first t (by rw [htype]; rfl)
  have hctor : (t.isWord && t.text == owner && startsWith (more ++ word :: rest) "(") = false := by
    cases ht : t.isWord with
    | false => rfl
    | true =>
      have hafter := h.type_eq
      rw [htype, List.cons_append] at hafter
      rw [startsWith_of_afterType? hafter (hsound t (by simp [htype]) ht)
        (hsound word (by simp) h.isWord), Bool.and_false]
  have htake : (type ++ word :: rest).take ((type ++ word :: rest).length - (rest.length + 1)) = type := by
    rw [List.length_append, List.length_cons, Nat.add_sub_cancel, List.take_left]
  have htyped : Source.memberOf cut owner ts = typedMember cut
      { attributes := (attributesSplit ts).1.map (flat cut),
        modifiers := ((attributesSplit ts).2.takeWhile isModifier).map (·.text) } (type ++ word :: rest) := by
    unfold Source.memberOf
    simp only [h.tokens_eq]
    rw [htype]
    simp only [List.cons_append, h₁, h₂, h₃, hctor, Bool.false_eq_true, if_false]
  rw [htyped, typedMember]
  simp only [h.type_eq, h.isWord, h.named.1, h.named.2, Bool.not_true, Bool.or_false, Bool.false_eq_true,
    if_false, htake]
  rfl

/-- A headed declaration with a parameter list is a method. -/
theorem Headed.method (hparen : startsWith (afterName word rest) "(" = true) {body : Body}
    (hbody : bodyOf cut (splitPair "(" ")" (afterName word rest)).2 = .ok body) :
    ∃ m, Source.memberOf cut owner ts = .ok m ∧ m.isMethod = true ∧
      m.name = (dottedName word.text rest).1 := by
  refine ⟨{ headOf cut ts type (dottedName word.text rest).1 with
    shape := .method (paramsOf cut (splitPair "(" ")" (afterName word rest)).1.tail.dropLast) body }, ?_,
    rfl, rfl⟩
  rw [h.memberOf hsound cut owner]
  simp only [hparen, if_true, hbody]
  rfl

theorem Headed.property (hbrace : startsWith (afterName word rest) Bytes.leftBrace = true)
    {accessors : List Accessor}
    (hacc : accessorsOf cut
      (splitPair Bytes.leftBrace Bytes.rightBrace (afterName word rest)).1.tail.dropLast = .ok accessors) :
    ∃ m, Source.memberOf cut owner ts = .ok m ∧ m.shape = .property accessors ∧
      m.name = (dottedName word.text rest).1 := by
  have hparen : startsWith (afterName word rest) "(" = false := by
    cases hrest : afterName word rest with
    | nil => rfl
    | cons t more =>
      rw [hrest] at hbrace
      exact Token.not_is (show t.is Bytes.leftBrace = true from hbrace) (by decide)
  refine ⟨{ headOf cut ts type (dottedName word.text rest).1 with shape := .property accessors }, ?_,
    rfl, rfl⟩
  rw [h.memberOf hsound cut owner]
  simp only [hparen, hbrace, if_true, hacc, Bool.false_eq_true, if_false]
  rfl

end

/-! ## Bodies -/

theorem bodyOf_ok (cut : Nat → Nat → Bytes) {ts : List Token} {stack : List Bytes}
    (h : unclosed stack ts = some []) : ∃ body, bodyOf cut ts = .ok body := by
  induction ts generalizing stack with
  | nil => exact ⟨.absent, rfl⟩
  | cons t ts ih =>
    rw [bodyOf]
    split
    · rename_i hbrace
      obtain ⟨ys, u, zs, rfl, -, -, hpair⟩ := exists_block hbrace h
      rw [hpair]
      cases ys with
      | nil => exact ⟨_, rfl⟩
      | cons y ys => exact ⟨_, rfl⟩
    · split
      · exact ⟨_, rfl⟩
      · split
        · exact ⟨_, rfl⟩
        · rcases unclosed_cases h with ⟨_, _, _, _, _, _, hrest⟩ | ⟨_, _, _, _, _, _, hrest⟩ | ⟨_, _, hrest⟩
          · exact ih hrest
          · exact ih hrest
          · exact ih hrest

theorem accessorsOf_eq (cut : Nat → Nat → Bytes) (ts : List Token) :
    accessorsOf cut ts =
      let bare := (attributesSplit ts).2
      let mods := (bare.takeWhile isAccessorModifier).map (·.text)
      match bare.dropWhile isAccessorModifier with
      | [] => .ok []
      | [keyword] => .ok [{ keyword := keyword.text, modifiers := mods }]
      | keyword :: next :: after =>
        let acc : Accessor := { keyword := keyword.text, modifiers := mods }
        let pair := splitPair Bytes.leftBrace Bytes.rightBrace (next :: after)
        if next.is ";" then (accessorsOf cut after).map ({ acc with auto := true } :: ·)
        else if next.is Bytes.leftBrace then do
          let body ← blockText cut pair.1
          (accessorsOf cut pair.2).map ({ acc with body := body } :: ·)
        else if next.is "=>" then
          (accessorsOf cut (after.dropWhile (!·.is ";")).tail).map
            ({ acc with body := raw cut (after.takeWhile (!·.is ";")) } :: ·)
        else (accessorsOf cut (next :: after)).map (acc :: ·) := by
  conv => lhs; rw [accessorsOf]
  split <;> simp [*]

/-! ## Texts that differ in their blanks -/

theorem not_isJunk_of_afterType? {t : Token} {ts rest : List Token}
    (h : afterType? (t :: ts) = some rest) : t.isJunk = false := by
  rw [afterType?] at h
  split at h
  · rename_i hopen
    exact Token.not_isJunk_of_is hopen (by decide)
  · split at h
    · rename_i hword
      exact Token.not_isJunk_of_isWord hword
    · cases h

theorem attributesSplit_suffix (ts : List Token) : (attributesSplit ts).2 <:+ ts := by
  fun_induction attributesSplit ts with
  | case1 => exact List.suffix_rfl
  | case2 t rest _ _ pair more =>
    rename_i ih
    exact ih.trans (splitPair_suffix _ _ _)
  | case3 => exact List.suffix_rfl

theorem Headed.suffix {ts type rest : List Token} {word : Token} (h : Headed ts type word rest) :
    type ++ word :: rest <:+ ts := by
  rw [← h.tokens_eq]
  exact (List.dropWhile_suffix _).trans (attributesSplit_suffix ts)

theorem Headed.thin {ts ts' type rest : List Token} {word : Token} (h : Headed ts type word rest)
    (hts : Thin ts ts') (hsound : ∀ t ∈ ts', t.isWord = true → t.isName = true) :
    ∃ type' word' rest', Headed ts' type' word' rest' ∧ Thin type type' ∧ Alike word word' ∧
      Thin rest rest' := by
  obtain ⟨t, more, rfl⟩ := List.exists_cons_of_ne_nil h.type_ne_nil
  have ht := not_isJunk_of_afterType? h.type_eq
  have hmods : ∃ x ys, (attributesSplit ts).2 = x :: ys ∧ x.isJunk = false := by
    have htokens := h.tokens_eq
    cases hattr : (attributesSplit ts).2 with
    | nil =>
      rw [hattr] at htokens
      cases htokens
    | cons x ys =>
      refine ⟨x, ys, rfl, ?_⟩
      rw [hattr] at htokens
      cases hx : isModifier x with
      | true =>
        unfold isModifier isWordOf at hx
        rw [Bool.and_eq_true] at hx
        exact Token.not_isJunk_of_isWord hx.1
      | false =>
        rw [List.dropWhile_cons_of_neg (by simp [hx])] at htokens
        rw [(List.cons.inj htokens).1]
        exact ht
  obtain ⟨x, ys, hattr, hx⟩ := hmods
  have hthin := dropWhile_isModifier_thin (attributesSplit_thin hts hattr hx) h.tokens_eq ht
  rw [h.tokens_eq] at hthin
  obtain ⟨type', zs, heq, htype, hzs⟩ := hthin.append_inv
  obtain ⟨word', rest', rfl, hword, hrest⟩ := hzs.uncons (Token.not_isJunk_of_isWord h.isWord)
  have hmem : word' ∈ ts' := by
    have hsub : type' ++ word' :: rest' <:+ ts' := by
      rw [← heq]
      exact (List.dropWhile_suffix _).trans (attributesSplit_suffix ts')
    exact hsub.subset (by simp)
  have hw' : word'.isWord = true := hword.isWord.trans h.isWord
  refine ⟨type', word', rest', ⟨heq, afterType?_thin h.type_eq htype (hsound word' hmem hw'), hw', ?_, ?_⟩,
    htype, hword, hrest⟩
  · rw [hword.is, hword.is]
    exact h.named
  · intro y hy
    obtain ⟨t', type', rfl, hta, -⟩ := htype.uncons ht
    cases hy
    rw [hta.isWordOf, hta.is, hta.is]
    exact h.first t rfl

theorem afterName_thin {word word' : Token} {rest rest' : List Token} (hw : Alike word word')
    (hword : word.isWord = true) (hrest : Thin rest rest')
    (hparen : startsWith (afterName word rest) "(" = true) :
    (dottedName word'.text rest').1 = (dottedName word.text rest).1 ∧
      startsWith (afterName word' rest') "(" = true := by
  unfold afterName at hparen ⊢
  simp only at hparen ⊢
  rw [hw.text hword]
  cases hless : startsWith (dottedName word.text rest).2 "<" with
  | true =>
    rw [hless, if_pos rfl] at hparen
    obtain ⟨hname, hthin⟩ := dottedName_thin hrest (Or.inl hless)
    refine ⟨hname, ?_⟩
    rw [if_pos (hthin.startsWith (by decide) hless)]
    have hq : (splitPair "<" ">" (dottedName word.text rest).2).2 ≠ [] := by
      intro hnil
      rw [hnil] at hparen
      cases hparen
    obtain ⟨-, hqq⟩ := splitPair_thin (by decide) (by decide) hthin hq
    exact hqq.startsWith (by decide) hparen
  | false =>
    rw [hless, if_neg (by simp)] at hparen
    obtain ⟨hname, hthin⟩ := dottedName_thin hrest (Or.inr hparen)
    refine ⟨hname, ?_⟩
    have hparen' := hthin.startsWith (by decide) hparen
    have hless' : startsWith (dottedName word.text rest').2 "<" = false := by
      cases hcase : (dottedName word.text rest').2 with
      | nil => rfl
      | cons t more =>
        rw [hcase] at hparen'
        exact Token.not_is (show t.is "(" = true from hparen') (by decide)
    rw [if_neg (by simp [hless'])]
    exact hparen'

theorem dottedName_suffix (name : Bytes) (ts : List Token) : (dottedName name ts).2 <:+ ts := by
  induction hlen : ts.length using Nat.strongRecOn generalizing name ts with
  | _ len ih =>
  rcases ts with _ | ⟨dot, _ | ⟨word, ts⟩⟩
  · exact List.suffix_rfl
  · exact List.suffix_rfl
  · rw [dottedName]
    split
    · have hrest := ih ts.length (by simp only [List.length_cons] at hlen; omega) word.text ts rfl
      exact (hrest.trans (List.suffix_cons _ _)).trans (List.suffix_cons _ _)
    · exact List.suffix_rfl

theorem afterName_suffix (word : Token) (rest : List Token) : afterName word rest <:+ rest := by
  unfold afterName
  simp only
  split
  · exact (splitPair_suffix _ _ _).trans (dottedName_suffix _ _)
  · exact dottedName_suffix _ _

/-- The end of nested tokens closes what is open before it. -/
theorem Nested.suffix {ts s : List Token} (h : Nested ts) (hs : s <:+ ts) :
    ∃ stack, Source.unclosed stack s = some [] := unclosed_suffix h hs

/-- **A method in texts that differ in their blanks** is a method with the same name. -/
theorem memberOf_thin {cut : Nat → Nat → Bytes} {owner : Bytes} {m : Member} {ts ts' : List Token}
    (h : memberOf cut owner ts = .ok m) (hm : m.isMethod = true) (hts : Thin ts ts')
    (hsound : ∀ t ∈ ts', t.isWord = true → t.isName = true) (hnest : Nested ts')
    (cut' : Nat → Nat → Bytes) (owner' : Bytes) :
    ∃ m', memberOf cut' owner' ts' = .ok m' ∧ m'.isMethod = true ∧ m'.name = m.name := by
  have hc : m.shape.isCarried = true := by
    unfold Member.isMethod at hm
    split at hm
    · rename_i hshape
      rw [hshape]
      rfl
    · cases hm
  obtain ⟨type, word, rest, hhead, hname, -, -, hshape⟩ := memberOf_inv h hc
  have hparen : startsWith (afterName word rest) "(" = true := by
    rcases hshape with ⟨hparen, -⟩ | ⟨accessors, hprop⟩
    · exact hparen
    · unfold Member.isMethod at hm
      rw [hprop] at hm
      cases hm
  obtain ⟨type', word', rest', hhead', -, hword, hrest⟩ := hhead.thin hts hsound
  obtain ⟨hname', hparen'⟩ := afterName_thin hword hhead.isWord hrest hparen
  have hafter : (splitPair "(" ")" (afterName word' rest')).2 <:+ ts' :=
    (((splitPair_suffix _ _ _).trans (afterName_suffix word' rest')).trans
      ((List.suffix_cons word' rest').trans (List.suffix_append type' _))).trans hhead'.suffix
  obtain ⟨stack, hstack⟩ := hnest.suffix hafter
  obtain ⟨body, hbody⟩ := bodyOf_ok cut' hstack
  obtain ⟨m', hm', hmethod, hmname⟩ := hhead'.method (fun t ht => hsound t
    (hhead'.suffix.subset (by rw [List.append_cons]; exact List.mem_append_left _ ht))) cut' owner' hparen' hbody
  exact ⟨m', hm', hmethod, by rw [hmname, hname', hname]⟩

end Flowsmith.Source
