import Flowsmith.Proofs.Source.Body

/-!
# Declarations that are written

A method with a dotted return type, and an automatic property, as they are written into a class:
both are read back under their names.

* `reservedWords`, `IsDottedName` : names that are no keywords;
* `isMember_method` : a method that is written is read as a method;
* `isMember_property` : a property that is written with the type of a declaration is read as a
  property.
-/

namespace Flowsmith.Source

/-- The keywords that reading a source gives a meaning to. -/
def reservedWords : List Bytes :=
  modifierWords ++ typeWords
    ++ (["using", "namespace", "where", "event", "this", "operator"] : List Bytes)

def IsDottedName (s : Bytes) : Prop :=
  IsDotted s ∧ ∀ part ∈ dottedParts s, part ∉ reservedWords

instance (s : Bytes) : Decidable (IsDottedName s) := inferInstanceAs (Decidable (_ ∧ _))

theorem mem_parens : (("(" : Bytes), (")" : Bytes)) ∈ bracketPairs := by decide

theorem mem_squares : (("[" : Bytes), ("]" : Bytes)) ∈ bracketPairs := by decide

theorem mem_braces : (Bytes.leftBrace, Bytes.rightBrace) ∈ bracketPairs := by decide

/-! ## Dotted types -/

theorem afterTypeName_of_isName {x : Token} (z : List Token) (hx : x.isName = true) :
    afterTypeName (x :: z) = x :: z := by
  rw [afterTypeName, isName_not_is hx (show ("." : Bytes) ∈ markTexts by decide),
    isName_not_is hx (show (":" : Bytes) ∈ markTexts by decide),
    isName_not_is hx (show ("<" : Bytes) ∈ markTexts by decide)]
  rfl

theorem afterTypeMarks_of_isName {x : Token} (z : List Token) (hx : x.isName = true) :
    afterTypeMarks (x :: z) = x :: z := by
  rw [afterTypeMarks, isName_not_is hx (show ("?" : Bytes) ∈ markTexts by decide),
    isName_not_is hx (show ("*" : Bytes) ∈ markTexts by decide),
    isName_not_is hx (show ("[" : Bytes) ∈ markTexts by decide)]
  rfl

theorem dottedTokens_cons (pos : Nat) (part : Bytes) (parts : List Bytes) :
    ∃ tail, dottedTokens pos (part :: parts) = ⟨.word, part, pos⟩ :: tail := by
  cases parts <;> exact ⟨_, rfl⟩

theorem afterTypeName_dotted {parts : List Bytes} {part : Bytes} {x : Token} {z tail : List Token}
    (hx : x.isName = true) {pos : Nat} (h : dottedTokens pos (part :: parts) = ⟨.word, part, pos⟩ :: tail) :
    afterTypeName (tail ++ x :: z) = x :: z := by
  induction parts generalizing pos part tail with
  | nil =>
    obtain ⟨-, rfl⟩ := List.cons.inj h
    exact afterTypeName_of_isName z hx
  | cons next parts ih =>
    obtain ⟨tail', htail⟩ := dottedTokens_cons (pos + part.length + 1) next parts
    obtain ⟨-, rfl⟩ := List.cons.inj h
    rw [List.cons_append, htail, afterTypeName, if_pos (by rfl)]
    exact ih htail

theorem afterType?_dotted {parts : List Bytes} (hne : parts ≠ []) (hparts : ∀ part ∈ parts, IsWord part)
    (pos : Nat) {x : Token} (z : List Token) (hx : x.isName = true) :
    afterType? (dottedTokens pos parts ++ x :: z) = some (x :: z) := by
  obtain ⟨part, parts, rfl⟩ := List.exists_cons_of_ne_nil hne
  obtain ⟨tail, htail⟩ := dottedTokens_cons pos part parts
  have hname : (⟨.word, part, pos⟩ : Token).isName = true :=
    isName_of_isWord (hparts part List.mem_cons_self)
  rw [htail, List.cons_append, afterType?, isName_not_is hname (by decide), if_neg (by simp),
    if_pos (by rfl), afterTypeName_dotted hx htail, afterTypeMarks_of_isName z hx]

/-! ## Heads of declarations -/

theorem attributesSplit_of_not_open {t : Token} {ts : List Token} (h : t.is "[" = false) :
    attributesSplit (t :: ts) = ([], t :: ts) := by
  rw [attributesSplit, if_neg (by simp [h])]

theorem attributesSplit_section {t u : Token} {xs : List Token} (ts : List Token) (ht : t.is "[" = true)
    (hx : Nested xs) (hu : u.is "]" = true) :
    (attributesSplit (t :: xs ++ u :: ts)).2 = (attributesSplit ts).2 := by
  have hpair := splitPair_nested mem_squares ht hx hu ts
  rw [List.cons_append] at hpair ⊢
  rw [attributesSplit, if_pos ht]
  simp only [hpair]

theorem headed_of_modifiers {ts mods type rest : List Token} {word : Token}
    (hts : (attributesSplit ts).2 = mods ++ (type ++ word :: rest))
    (hmods : ∀ t ∈ mods, isModifier t = true)
    (htype : afterType? (type ++ word :: rest) = some (word :: rest)) (hword : word.isName = true)
    (hnamed : word.is "this" = false ∧ word.is "operator" = false)
    (hfirst : ∀ t, type.head? = some t →
      isModifier t = false ∧ isWordOf typeWords t = false ∧ t.is "event" = false ∧ t.is "~" = false) :
    Headed ts type word rest where
  tokens_eq := by
    obtain ⟨pre, hpre, hne⟩ := afterType?_suffix htype
    have hpre' : pre = type := (List.append_cancel_right hpre).symm
    subst hpre'
    obtain ⟨t, more, rfl⟩ := List.exists_cons_of_ne_nil hne
    have ht := (hfirst t rfl).1
    rw [hts, List.dropWhile_append_of_pos hmods, List.cons_append,
      List.dropWhile_cons_of_neg (by simp [ht])]
  type_eq := htype
  isWord := Token.isWord_of_isName hword
  named := hnamed
  first := fun t ht => (hfirst t ht).2

/-! ## Methods -/

theorem not_is_of_text_ne {t : Token} {w : Bytes} (h : t.text ≠ w) : t.is w = false := by
  rw [Token.is, beq_false_of_ne h, Bool.and_false]

theorem not_isWordOf_of_not_mem {t : Token} {words : List Bytes} (h : t.text ∉ words) :
    isWordOf words t = false := by
  rw [isWordOf, Bool.eq_false_iff.2 fun hc => h (List.contains_iff_mem.1 hc), Bool.and_false]

theorem first_of_not_reserved {t : Token} (hname : t.isName = true) (h : t.text ∉ reservedWords) :
    isModifier t = false ∧ isWordOf typeWords t = false ∧ t.is "event" = false ∧ t.is "~" = false := by
  simp only [reservedWords, List.mem_append, not_or] at h
  refine ⟨not_isWordOf_of_not_mem h.1.1, not_isWordOf_of_not_mem h.1.2,
    not_is_of_text_ne fun htext => h.2 (by rw [htext]; decide), isName_not_is hname (by decide)⟩

theorem dottedName_of_not_dot (name : Bytes) {t : Token} (ts : List Token) (h : t.is "." = false) :
    dottedName name (t :: ts) = (name, t :: ts) := by
  cases ts with
  | nil => rfl
  | cons u ts => rw [dottedName, h, Bool.false_and, if_neg (by simp)]

theorem afterName_of_mark {word t : Token} (ts : List Token) (hdot : t.is "." = false)
    (hless : t.is "<" = false) : afterName word (t :: ts) = t :: ts := by
  unfold afterName
  rw [dottedName_of_not_dot word.text ts hdot]
  exact if_neg (by simp [startsWith, hless])

def methodTokens (mods : List Token) (parts : List Bytes) (name : Bytes) (params inner : List Token) :
    List Token :=
  mods ++ (dottedTokens 0 parts ++ Token.ofWord name ::
    ((Token.ofMark "(" :: params ++ [Token.ofMark ")"])
      ++ (Token.ofMark Bytes.leftBrace :: inner ++ [Token.ofMark Bytes.rightBrace])))

section

variable {mods params inner : List Token} {parts : List Bytes} {name : Bytes}

theorem nested_methodTokens (hmods : ∀ t ∈ mods, isModifier t = true)
    (hparts : ∀ part ∈ parts, IsWord part) (hname : IsWord name) (hparams : Nested params)
    (hinner : Nested inner) : Nested (methodTokens mods parts name params inner) := by
  have hword : Nested [Token.ofWord name] :=
    nested_of_plain fun t ht => plain_of_isName (List.mem_singleton.1 ht ▸ isName_of_isWord hname)
  have hparen : Nested (Token.ofMark "(" :: params ++ [Token.ofMark ")"]) :=
    Nested.pair mem_parens rfl rfl hparams nested_nil
  have hblock : Nested (Token.ofMark Bytes.leftBrace :: inner ++ [Token.ofMark Bytes.rightBrace]) :=
    Nested.pair mem_braces rfl rfl hinner nested_nil
  have htype : Nested (dottedTokens 0 parts) := nested_of_plain fun t ht => plain_dotted hparts ht
  have hhead : Nested mods := nested_of_plain fun t ht => plain_of_isName (isName_of_isModifier (hmods t ht))
  exact hhead.append (htype.append (hword.append (hparen.append hblock)))

theorem isInert_of_dot {t : Token} (h : t.is "." = true) : t.isInert = true := by
  obtain ⟨hopen, hclose⟩ := plain_of_is h (by decide)
  rw [Token.isInert, hopen, hclose, Token.not_is h (by decide), Token.not_is h (by decide),
    Token.not_is h (by decide)]
  rfl

theorem memberSplit_methodTokens (hmods : ∀ t ∈ mods, isModifier t = true)
    (hparts : ∀ part ∈ parts, IsWord part) (hname : IsWord name) (hparams : Nested params)
    (hinner : Nested inner) {rest : List Token} (hassign : startsWith rest "=" = false) :
    memberSplit (methodTokens mods parts name params inner ++ rest)
      = (methodTokens mods parts name params inner, rest) := by
  have hhead : Passes mods :=
    passes_of_inert fun t ht => isInert_of_isName (isName_of_isModifier (hmods t ht))
  have htype : Passes (dottedTokens 0 parts) := passes_of_inert fun t ht =>
    (isName_of_dotted hparts ht).elim isInert_of_isName isInert_of_dot
  have hword : Passes [Token.ofWord name] := passes_inert (isInert_of_isName (isName_of_isWord hname))
  have hparen : Passes (Token.ofMark "(" :: params ++ [Token.ofMark ")"]) :=
    passes_pair mem_parens (by decide) rfl rfl hparams
  have hpass := hhead.append (htype.append (hword.append hparen))
  have hsplit := hpass.block (t := .ofMark Bytes.leftBrace) (u := .ofMark Bytes.rightBrace) rfl rfl hinner
    hassign
  have happ : mods ++ (dottedTokens 0 parts ++ ([Token.ofWord name]
        ++ (Token.ofMark "(" :: params ++ [Token.ofMark ")"])))
      ++ (Token.ofMark Bytes.leftBrace :: inner ++ [Token.ofMark Bytes.rightBrace])
      = methodTokens mods parts name params inner := by simp [methodTokens]
  rwa [happ] at hsplit

theorem headed_methodTokens (hmods : ∀ t ∈ mods, isModifier t = true) (hne : parts ≠ [])
    (hparts : ∀ part ∈ parts, IsWord part)
    (hfirst : ∀ part, parts.head? = some part → part ∉ reservedWords) (hname : IsWord name)
    (hnamed : name ≠ "this" ∧ name ≠ "operator") :
    Headed (methodTokens mods parts name params inner) (dottedTokens 0 parts) (.ofWord name)
      ((Token.ofMark "(" :: params ++ [Token.ofMark ")"])
        ++ (Token.ofMark Bytes.leftBrace :: inner ++ [Token.ofMark Bytes.rightBrace])) := by
  obtain ⟨part, parts, rfl⟩ := List.exists_cons_of_ne_nil hne
  obtain ⟨tail, htail⟩ := dottedTokens_cons 0 part parts
  have hpart : (⟨.word, part, 0⟩ : Token).isName = true :=
    isName_of_isWord (hparts part List.mem_cons_self)
  have hword := isName_of_isWord hname
  refine headed_of_modifiers ?_ hmods (afterType?_dotted hne hparts 0 _ hword) hword
    ⟨not_is_of_text_ne hnamed.1, not_is_of_text_ne hnamed.2⟩ fun t ht => ?_
  · -- the first token is a modifier or the first word of the type
    rw [methodTokens]
    cases mods with
    | nil =>
      rw [htail, List.nil_append, List.cons_append,
        attributesSplit_of_not_open (isName_not_is hpart (by decide))]
    | cons t mods =>
      have ht := isName_of_isModifier (hmods t List.mem_cons_self)
      rw [List.cons_append, attributesSplit_of_not_open (isName_not_is ht (by decide))]
  · rw [htail, List.head?_cons, Option.some_inj] at ht
    subst ht
    exact first_of_not_reserved hpart (hfirst part rfl)

/-- **A method that is written is read as a method.** -/
theorem isMember_method {g : List Token} (hmods : ∀ t ∈ mods, isModifier t = true) (hne : parts ≠ [])
    (hparts : ∀ part ∈ parts, IsWord part)
    (hfirst : ∀ part, parts.head? = some part → part ∉ reservedWords) (hname : IsWord name)
    (hnamed : name ≠ "this" ∧ name ≠ "operator") (hparams : Nested params) (hinner : Nested inner)
    (hthin : Thin (methodTokens mods parts name params inner) g)
    (hsound : ∀ t ∈ g, t.isWord = true → t.isName = true) : IsMember name .method False g := by
  have hnest := nested_methodTokens hmods hparts hname hparams hinner
  have hhead : Headed (methodTokens mods parts name params inner) _ _ _ :=
    headed_methodTokens hmods hne hparts hfirst hname hnamed
  have hafter : afterName (Token.ofWord name) ((Token.ofMark "(" :: params ++ [Token.ofMark ")"])
      ++ (Token.ofMark Bytes.leftBrace :: inner ++ [Token.ofMark Bytes.rightBrace])) = _ :=
    afterName_of_mark _ (by decide) (by decide)
  obtain ⟨stack, hstack⟩ := hnest.suffix (((splitPair_suffix "(" ")" _).trans (afterName_suffix _ _)).trans
    ((List.suffix_cons _ _).trans ((List.suffix_append _ _).trans hhead.suffix)))
  obtain ⟨body, hbody⟩ := bodyOf_ok (Bytes.slice []) hstack
  have hwords : ∀ t ∈ dottedTokens 0 parts ++ [Token.ofWord name], t.isWord = true → t.isName = true := by
    intro t ht hw
    rcases List.mem_append.1 ht with ht | ht
    · exact isName_of_dottedWord hparts ht hw
    · exact List.mem_singleton.1 ht ▸ isName_of_isWord hname
  obtain ⟨m, hm, hmethod, hmname⟩ := hhead.method hwords (Bytes.slice []) [] (by rw [hafter]; rfl) hbody
  have hsplit := memberSplit_methodTokens hmods hparts hname hparams hinner
    (show startsWith [Token.ofMark ";"] "=" = false from rfl)
  have hmember := isMember_thin hm hmethod hsplit hnest hthin hsound
  have hread : (dottedName name ((Token.ofMark "(" :: params ++ [Token.ofMark ")"])
      ++ (Token.ofMark Bytes.leftBrace :: inner ++ [Token.ofMark Bytes.rightBrace]))).1 = name :=
    congrArg Prod.fst (dottedName_of_not_dot name _ (by decide))
  rw [hmname, show (Token.ofWord name).text = name from rfl, hread] at hmember
  exact hmember.mono (by simp)

end

/-! ## Properties -/

/-- The tokens of the accessors of an automatic property. -/
def autoTokens : List Token := [.ofWord "get", .ofMark ";", .ofWord "set", .ofMark ";"]

def propertyTokens (attr mods type : List Token) (name : Bytes) : List Token :=
  (Token.ofMark "[" :: attr ++ [Token.ofMark "]"]) ++ (mods ++ (type ++ Token.ofWord name ::
    (Token.ofMark Bytes.leftBrace :: autoTokens ++ [Token.ofMark Bytes.rightBrace])))

theorem nested_autoTokens : Nested autoTokens := by decide

theorem accessorsOf_nil (cut : Nat → Nat → Bytes) : accessorsOf cut [] = .ok [] := by
  rw [accessorsOf_eq]
  simp [attributesSplit]

theorem accessorsOf_cons (cut : Nat → Nat → Bytes) {keyword stop : Token} {ts : List Token}
    {as : List Accessor} (hword : keyword.isName = true) (hkeyword : isAccessorModifier keyword = false)
    (hstop : stop.is ";" = true) (h : accessorsOf cut ts = .ok as) :
    ∃ accessors, accessorsOf cut (keyword :: stop :: ts) = .ok accessors := by
  have hbare : (attributesSplit (keyword :: stop :: ts)).2.dropWhile isAccessorModifier
      = keyword :: stop :: ts := by
    rw [attributesSplit_of_not_open (isName_not_is hword (by decide)),
      List.dropWhile_cons_of_neg (by simp [hkeyword])]
  rw [accessorsOf_eq]
  simp only [hbare, hstop, h, if_true]
  exact ⟨_, rfl⟩

theorem accessorsOf_auto (cut : Nat → Nat → Bytes) {ts : List Token} (h : Thin autoTokens ts)
    (hsound : ∀ t ∈ ts, t.isWord = true → t.isName = true) :
    ∃ accessors, accessorsOf cut ts = .ok accessors := by
  obtain ⟨get, ts, rfl, hget, h⟩ := h.uncons (by decide)
  obtain ⟨end₁, ts, rfl, hend₁, h⟩ := h.uncons (by decide)
  obtain ⟨set, ts, rfl, hset, h⟩ := h.uncons (by decide)
  obtain ⟨end₂, ts, rfl, hend₂, h⟩ := h.uncons (by decide)
  obtain rfl := h.nil_left
  obtain ⟨setter, hsetter⟩ := accessorsOf_cons cut (hsound set (by simp) (by rw [hset.isWord]; rfl))
    (by rw [isAccessorModifier, hset.isWordOf]; decide) (by rw [hend₂.is]; rfl) (accessorsOf_nil cut)
  exact accessorsOf_cons cut (hsound get (by simp) (by rw [hget.isWord]; rfl))
    (by rw [isAccessorModifier, hget.isWordOf]; decide) (by rw [hend₁.is]; rfl) hsetter

section

variable {attr mods type g₀ more : List Token} {word : Token} {name : Bytes}

theorem nested_propertyTokens (hattr : Nested attr) (hmods : ∀ t ∈ mods, isModifier t = true)
    (htype : Nested type) (hname : IsWord name) : Nested (propertyTokens attr mods type name) := by
  have hsquare : Nested (Token.ofMark "[" :: attr ++ [Token.ofMark "]"]) :=
    Nested.pair mem_squares rfl rfl hattr nested_nil
  have hword : Nested [Token.ofWord name] :=
    nested_of_plain fun t ht => plain_of_isName (List.mem_singleton.1 ht ▸ isName_of_isWord hname)
  have hblock : Nested (Token.ofMark Bytes.leftBrace :: autoTokens ++ [Token.ofMark Bytes.rightBrace]) := by decide
  have hhead : Nested mods := nested_of_plain fun t ht => plain_of_isName (isName_of_isModifier (hmods t ht))
  exact hsquare.append (hhead.append (htype.append (hword.append hblock)))

theorem memberSplit_propertyTokens (hattr : Nested attr) (hmods : ∀ t ∈ mods, isModifier t = true)
    (hpass : Passes type) (hname : IsWord name) {rest : List Token}
    (hassign : startsWith rest "=" = false) :
    memberSplit (propertyTokens attr mods type name ++ rest)
      = (propertyTokens attr mods type name, rest) := by
  have hsquare : Passes (Token.ofMark "[" :: attr ++ [Token.ofMark "]"]) :=
    passes_pair mem_squares (by decide) rfl rfl hattr
  have hhead : Passes mods :=
    passes_of_inert fun t ht => isInert_of_isName (isName_of_isModifier (hmods t ht))
  have hword : Passes [Token.ofWord name] := passes_inert (isInert_of_isName (isName_of_isWord hname))
  have hsplit := (hsquare.append (hhead.append (hpass.append hword))).block
    (t := .ofMark Bytes.leftBrace) (u := .ofMark Bytes.rightBrace) rfl rfl nested_autoTokens hassign
  have happ : (Token.ofMark "[" :: attr ++ [Token.ofMark "]"]) ++ (mods ++ (type ++ [Token.ofWord name]))
      ++ (Token.ofMark Bytes.leftBrace :: autoTokens ++ [Token.ofMark Bytes.rightBrace])
      = propertyTokens attr mods type name := by simp [propertyTokens]
  rwa [happ] at hsplit

theorem Headed.not_isModifier (h : Headed g₀ type word more) {t : Token} (ht : type.head? = some t) :
    isModifier t = false := by
  have htokens := h.tokens_eq
  cases type with
  | nil => cases ht
  | cons x type =>
    cases ht
    have := List.head?_dropWhile_not isModifier (attributesSplit g₀).2
    rw [htokens] at this
    simpa using this

theorem headed_propertyTokens (hattr : Nested attr) (hmods : ∀ t ∈ mods, isModifier t = true)
    (hne : mods ≠ []) (h : Headed g₀ type word more) (hname : IsWord name)
    (hnamed : name ≠ "this" ∧ name ≠ "operator") :
    Headed (propertyTokens attr mods type name) type (.ofWord name)
      (Token.ofMark Bytes.leftBrace :: autoTokens ++ [Token.ofMark Bytes.rightBrace]) := by
  have hword := isName_of_isWord hname
  refine headed_of_modifiers ?_ hmods (afterType?_thin h.type_eq (thin_refl type) hword) hword
    ⟨not_is_of_text_ne hnamed.1, not_is_of_text_ne hnamed.2⟩ fun t ht => ⟨h.not_isModifier ht, h.first t ht⟩
  obtain ⟨t, mods, rfl⟩ := List.exists_cons_of_ne_nil hne
  have ht := isName_of_isModifier (hmods t List.mem_cons_self)
  rw [propertyTokens, List.append_assoc, List.singleton_append,
    attributesSplit_section _ (by rfl) hattr (by rfl), List.cons_append,
    attributesSplit_of_not_open (isName_not_is ht (by decide))]

/-- **A property that is written with the type of a declaration is read as a property.** -/
theorem isMember_property {g : List Token} (hattr : Nested attr)
    (hmods : ∀ t ∈ mods, isModifier t = true) (hne : mods ≠ []) (h : Headed g₀ type word more)
    (htype : Nested type) (hpass : Passes type) (hname : IsWord name)
    (hnamed : name ≠ "this" ∧ name ≠ "operator") (hthin : Thin (propertyTokens attr mods type name) g)
    (hsound : ∀ t ∈ g, t.isWord = true → t.isName = true) : IsMember name .property False g where
  sound := hsound
  nested := hthin.nested (nested_propertyTokens hattr hmods htype hname)
  split := fun rest hassign _ =>
    memberSplitFrom_thin (memberSplit_propertyTokens hattr hmods hpass hname
      (show startsWith [Token.ofMark ";"] "=" = false from rfl)) hthin hassign (by simp)
  read := fun cut owner => by
    obtain ⟨type', word', rest', hhead, -, hword, hrest⟩ :=
      (headed_propertyTokens hattr hmods hne h hname hnamed).thin hthin hsound
    obtain ⟨brace, rest', rfl, hbrace, hrest⟩ := hrest.uncons (by decide)
    obtain ⟨inner, tail, rfl, hinner, htail⟩ := hrest.append_inv
    obtain ⟨close, tail, rfl, hclose, hnil⟩ := htail.uncons (by decide)
    obtain rfl := hnil.nil_left
    have hopen : brace.is Bytes.leftBrace = true := by rw [hbrace.is]; rfl
    have hafter : afterName word' (brace :: (inner ++ [close])) = brace :: (inner ++ [close]) :=
      afterName_of_mark _ (Token.not_is hopen (by decide)) (Token.not_is hopen (by decide))
    have hpair : splitPair Bytes.leftBrace Bytes.rightBrace (brace :: (inner ++ [close]))
        = (brace :: inner ++ [close], []) :=
      splitPair_nested mem_braces hopen (hinner.nested nested_autoTokens)
        (by rw [hclose.is]; rfl) []
    have hmem : ∀ t ∈ type' ++ word' :: brace :: (inner ++ [close]), t ∈ g := fun t ht =>
      hhead.suffix.subset ht
    obtain ⟨accessors, hacc⟩ := accessorsOf_auto cut hinner fun t ht =>
      hsound t (hmem t (by simp [ht]))
    obtain ⟨m, hm, hshape, hmname⟩ := hhead.property
      (fun t ht => hsound t (hmem t (by rw [List.append_cons]; exact List.mem_append_left _ ht)))
      cut owner (by rw [hafter]; exact hopen) (by rw [hafter, hpair]; simpa using hacc)
    refine ⟨m, hm, ?_⟩
    rw [Member.signature, hshape, hmname, hword.text rfl,
      dottedName_of_not_dot _ _ (Token.not_is hopen (by decide))]
    rfl

end

end Flowsmith.Source
