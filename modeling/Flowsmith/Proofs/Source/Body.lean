import Flowsmith.Proofs.Source.Parts
import Flowsmith.Proofs.Source.Turns
import Mathlib.Data.List.TakeWhile

/-!
# Class bodies member by member

A class body is read as its members when each of them ends where the next one begins. What a member
is called and whether it is a method or a property does not depend on where it stands.

* `Member.signature` : the name of a member and its form;
* `IsMember` : tokens that are read as one member, whatever other members follow;
* `IsBody` : tokens that are read as members with given signatures;
* `Passes` : tokens that do not end a member.
-/

namespace Flowsmith.Source

/-- The forms of members that a class is read for. -/
inductive Form where
  | method
  | property
  deriving DecidableEq, Repr

def Shape.form? : Shape → Option Form
  | .method _ _ => some .method
  | .property _ => some .property
  | _ => none

def Member.signature (m : Member) : Bytes × Option Form := (m.name, m.shape.form?)

/-- Tokens that are read as one member; `final` says that no other may follow. -/
structure IsMember (name : Bytes) (form : Form) (final : Prop) (g : List Token) : Prop where
  sound : ∀ t ∈ g, t.isWord = true → t.isName = true
  nested : Nested g
  split : ∀ rest, startsWith rest "=" = false → (final → rest = []) →
    memberSplit (g ++ rest) = (g, rest)
  read : ∀ cut owner, ∃ m, memberOf cut owner g = .ok m ∧ m.signature = (name, some form)

theorem IsMember.mono {name : Bytes} {form : Form} {final final' : Prop} {g : List Token}
    (h : IsMember name form final g) (hf : final → final') : IsMember name form final' g :=
  ⟨h.sound, h.nested, fun rest hassign hlast => h.split rest hassign fun hfin => hlast (hf hfin), h.read⟩

/-- Tokens that are read as members with these signatures. -/
structure IsBody (signatures : List (Bytes × Option Form)) (ts : List Token) : Prop where
  nested : Nested ts
  unassigned : startsWith ts "=" = false
  read : ∀ cut owner trivia boundary, ∃ ms,
    membersOf cut owner trivia boundary ts = .ok ms ∧ ms.map Member.signature = signatures

/-! ## From members to bodies -/

theorem isCarried_of_signature {m : Member} {name : Bytes} {form : Form}
    (h : m.signature = (name, some form)) : m.shape.isCarried = true := by
  have hform : m.shape.form? = some form := congrArg Prod.snd h
  unfold Shape.form? at hform
  split at hform
  · rename_i hs
    rw [hs]
    rfl
  · rename_i hs
    rw [hs]
    rfl
  · cases hform

/-- A declaration begins with an attribute or a word, or with a type in parentheses. -/
theorem Headed.head {ts type rest : List Token} {word : Token} (h : Headed ts type word rest) :
    ∃ t more, ts = t :: more ∧ (t.is "[" = true ∨ t.is "(" = true ∨ t.isWord = true) := by
  cases ts with
  | nil =>
    have htokens := h.tokens_eq
    rw [attributesSplit] at htokens
    exact absurd htokens.symm (by simp)
  | cons t more =>
    refine ⟨t, more, rfl, ?_⟩
    cases hopen : t.is "[" with
    | true => exact Or.inl rfl
    | false =>
      have htokens := h.tokens_eq
      rw [attributesSplit, if_neg (by simp [hopen])] at htokens
      cases hmod : isModifier t with
      | true =>
        unfold isModifier isWordOf at hmod
        exact Or.inr (Or.inr (Bool.and_eq_true_iff.1 hmod).1)
      | false =>
        rw [List.dropWhile_cons_of_neg (by simp [hmod])] at htokens
        have htype := h.type_eq
        rw [← htokens, afterType?] at htype
        split at htype
        · rename_i hparen
          exact Or.inr (Or.inl hparen)
        · split at htype
          · rename_i hword
            exact Or.inr (Or.inr hword)
          · cases htype

theorem head_of_carried {cut : Nat → Nat → Bytes} {owner : Bytes} {ts : List Token} {m : Member}
    (h : memberOf cut owner ts = .ok m) (hc : m.shape.isCarried = true)
    (hsound : ∀ t ∈ ts, t.isWord = true → t.isName = true) :
    ∃ t more, ts = t :: more ∧ ∀ w ∈ ([";", "=", "#"] : List Bytes), t.is w = false := by
  obtain ⟨type, word, rest, hhead, -⟩ := memberOf_inv h hc
  obtain ⟨t, more, rfl, hfirst⟩ := hhead.head
  refine ⟨t, more, rfl, fun w hw => ?_⟩
  rcases hfirst with hopen | hparen | hword
  · exact Token.not_is hopen (by rintro rfl; exact absurd hw (by decide))
  · exact Token.not_is hparen (by rintro rfl; exact absurd hw (by decide))
  · exact isName_not_is (hsound t List.mem_cons_self hword) (by revert w; decide)

theorem isBody_nil : IsBody [] [] where
  nested := nested_nil
  unassigned := rfl
  read := fun cut owner trivia boundary => ⟨[], by rw [membersOf], rfl⟩

/-- The first member is read by itself, and the other members after it. -/
theorem membersOf_append {cut : Nat → Nat → Bytes} {owner : Bytes} {trivia g ts : List Token}
    {boundary : Nat} {t b : Token} {m : Member} (ht : g.head? = some t) (hb : g.getLast? = some b)
    (hsemi : t.is ";" = false) (hsplit : memberSplit (g ++ ts) = (g, ts))
    (hm : memberOf cut owner g = .ok m) :
    membersOf cut owner trivia boundary (g ++ ts) = (membersOf cut owner trivia b.stop ts).map
      ({ m with
        text := cut (textStart cut trivia boundary t.start) b.stop
        column := columnOf cut (textStart cut trivia boundary t.start) } :: ·) := by
  obtain ⟨more, rfl⟩ : ∃ more, g = t :: more := by
    cases g with
    | nil => cases ht
    | cons x more => exact ⟨more, by rw [Option.some.inj ht]⟩
  rw [List.cons_append] at hsplit ⊢
  rw [membersOf, if_neg (by simp [hsemi])]
  simp only [hsplit, hm, hb]
  rfl

theorem IsMember.body {name : Bytes} {form : Form} {final : Prop} {g ts : List Token}
    {signatures : List (Bytes × Option Form)} (hg : IsMember name form final g)
    (hts : IsBody signatures ts) (hfinal : final → ts = []) :
    IsBody ((name, some form) :: signatures) (g ++ ts) := by
  obtain ⟨m₀, hm₀, hsig₀⟩ := hg.read (Bytes.slice []) []
  obtain ⟨t, more, rfl, hfirst⟩ := head_of_carried hm₀ (isCarried_of_signature hsig₀) hg.sound
  refine ⟨hg.nested.append hts.nested, hfirst _ (by simp), fun cut owner trivia boundary => ?_⟩
  obtain ⟨m, hm, hsig⟩ := hg.read cut owner
  have hsplit := hg.split ts hts.unassigned hfinal
  obtain ⟨b, hb⟩ : ∃ b, (t :: more).getLast? = some b := ⟨_, List.getLast?_eq_some_getLast (by simp)⟩
  obtain ⟨ms, hms, hsigs⟩ := hts.read cut owner trivia b.stop
  refine ⟨{ m with
    text := cut (textStart cut trivia boundary t.start) b.stop
    column := columnOf cut (textStart cut trivia boundary t.start) } :: ms, ?_, ?_⟩
  · rw [membersOf_append rfl hb (hfirst _ (by simp)) hsplit hm, hms]
    rfl
  · rw [List.map_cons, hsigs, ← hsig]
    rfl

/-! ## Methods -/

theorem signature_of_isMethod {m : Member} (h : m.isMethod = true) :
    m.signature = (m.name, some .method) := by
  unfold Member.isMethod at h
  unfold Member.signature
  split at h
  · rename_i hs
    rw [hs]
    rfl
  · cases h

/-- A method that is written with other blanks is read as before. -/
theorem isMember_thin {cut : Nat → Nat → Bytes} {owner : Bytes} {m : Member} {g g' rest : List Token}
    (h : memberOf cut owner g = .ok m) (hm : m.isMethod = true)
    (hsplit : memberSplit (g ++ rest) = (g, rest)) (hnest : Nested g) (hthin : Thin g g')
    (hsound : ∀ t ∈ g', t.isWord = true → t.isName = true) :
    IsMember m.name .method (rest = []) g' where
  sound := hsound
  nested := hthin.nested hnest
  split := fun _ hassign hlast => memberSplitFrom_thin hsplit hthin hassign hlast
  read := fun cut' owner' => by
    obtain ⟨m', hm', hmethod, hname⟩ := memberOf_thin h hm hthin hsound (hthin.nested hnest) cut' owner'
    exact ⟨m', hm', by rw [signature_of_isMethod hmethod, hname]⟩

/-! ## Tokens that do not end a member -/

/-- Tokens that neither end a member nor assign a value, when nothing is open in front of them. -/
def Passes (xs : List Token) : Prop :=
  ∀ op, ∃ op', ∀ ys, memberSplitFrom 0 false op (xs ++ ys)
    = (xs ++ (memberSplitFrom 0 false op' ys).1, (memberSplitFrom 0 false op' ys).2)

theorem passes_nil : Passes [] := fun op => ⟨op, fun _ => rfl⟩

theorem Passes.append {xs ys : List Token} (hx : Passes xs) (hy : Passes ys) : Passes (xs ++ ys) := by
  intro op
  obtain ⟨op₁, h₁⟩ := hx op
  obtain ⟨op₂, h₂⟩ := hy op₁
  refine ⟨op₂, fun zs => ?_⟩
  rw [List.append_assoc, h₁, h₂, List.append_assoc]

/-- A token that has no part in where a member ends. -/
def Token.isInert (t : Token) : Bool :=
  t.closer?.isNone && !closes t && !t.is ";" && !t.is "=" && !t.is "=>"

/-- Tokens that leave the search for the end of a member as it was. -/
def Steady (xs : List Token) : Prop :=
  ∀ op ys, memberSplitFrom 0 false op (xs ++ ys)
    = (xs ++ (memberSplitFrom 0 false op ys).1, (memberSplitFrom 0 false op ys).2)

theorem Steady.passes {xs : List Token} (h : Steady xs) : Passes xs := fun op => ⟨op, h op⟩

theorem Steady.append {xs ys : List Token} (hx : Steady xs) (hy : Steady ys) : Steady (xs ++ ys) := by
  intro op zs
  rw [List.append_assoc, hx, hy, List.append_assoc]

theorem steady_of_goes {xs : List Token} (h : ∀ op, Goes memberStep ⟨0, false, op⟩ xs ⟨0, false, op⟩) :
    Steady xs := fun op ys => (h op).memberSplit ys

theorem goes_inert {t : Token} (h : t.isInert = true) (op : Bool) :
    Goes memberStep ⟨0, false, op⟩ [t] ⟨0, false, op || t.is "operator"⟩ := by
  simp only [Token.isInert, Bool.and_eq_true, Bool.not_eq_true', Option.isNone_iff_eq_none] at h
  obtain ⟨⟨⟨⟨hopen, hclose⟩, hend⟩, hequals⟩, harrow⟩ := h
  refine .single fun _ => ?_
  rw [memberStep_outer (opens_of_closer? hopen) hclose hend, hequals, harrow]
  simp

theorem steady_inert {t : Token} (h : t.isInert = true) (hop : t.is "operator" = false) : Steady [t] :=
  steady_of_goes fun op => by
    have hgoes := goes_inert h op
    rwa [hop, Bool.or_false] at hgoes

theorem passes_inert {t : Token} (h : t.isInert = true) : Passes [t] := fun op =>
  ⟨op || t.is "operator", (goes_inert h op).memberSplit⟩

theorem passes_of_inert {xs : List Token} (h : ∀ t ∈ xs, t.isInert = true) : Passes xs := by
  induction xs with
  | nil => exact passes_nil
  | cons t xs ih =>
    exact (passes_inert (h t List.mem_cons_self)).append
      (ih fun x hx => h x (List.mem_cons_of_mem _ hx))

theorem isInert_of_isName {t : Token} (h : t.isName = true) : t.isInert = true := by
  obtain ⟨hopen, hclose⟩ := plain_of_isName h
  rw [Token.isInert, hopen, hclose, isName_not_is h (by decide), isName_not_is h (by decide),
    isName_not_is h (by decide)]
  rfl

theorem steady_pair {o c : Bytes} (hp : (o, c) ∈ bracketPairs) (hc : c ≠ Bytes.rightBrace) {t u : Token}
    {xs : List Token} (ht : t.is o = true) (hu : u.is c = true) (hx : Nested xs) :
    Steady (t :: xs ++ [u]) := steady_of_goes (goes_brackets hp ht hx hu (.inl hc))

theorem passes_pair {o c : Bytes} (hp : (o, c) ∈ bracketPairs) (hc : c ≠ Bytes.rightBrace) {t u : Token}
    {xs : List Token} (ht : t.is o = true) (hu : u.is c = true) (hx : Nested xs) :
    Passes (t :: xs ++ [u]) := (steady_pair hp hc ht hu hx).passes

theorem memberSplitFrom_semicolon {t : Token} (ht : t.is ";" = true) (assigned op : Bool)
    (ys : List Token) : memberSplitFrom 0 assigned op (t :: ys) = ([t], ys) := by
  obtain ⟨hopen, hclose⟩ := plain_of_is ht (by decide)
  rw [memberSplitFrom_eq]
  exact through_stop (memberStep_semicolon (opens_of_closer? hopen) hclose ht)

theorem memberSplitFrom_block {t u : Token} {xs ys : List Token} (ht : t.is Bytes.leftBrace = true)
    (hu : u.is Bytes.rightBrace = true) (hx : Nested xs) (hassign : startsWith ys "=" = false) (op : Bool) :
    memberSplitFrom 0 false op (t :: xs ++ u :: ys) = (t :: xs ++ [u], ys) := by
  have hp : (Bytes.leftBrace, Bytes.rightBrace) ∈ bracketPairs := by decide
  obtain ⟨hcloses, hnone⟩ := closes_of_is hp hu
  have hend : memberStep ⟨1, false, op⟩ u (startsWith ys "=") = none := by
    rw [hassign]
    exact memberStep_block (opens_of_closer? hnone) hcloses hu
  rw [memberSplitFrom_eq, (goes_opened hp ht hx false op).through, through_stop hend]

theorem Passes.block {pre xs ys : List Token} {t u : Token} (hpre : Passes pre)
    (ht : t.is Bytes.leftBrace = true) (hu : u.is Bytes.rightBrace = true) (hx : Nested xs)
    (hassign : startsWith ys "=" = false) :
    memberSplit (pre ++ (t :: xs ++ [u]) ++ ys) = (pre ++ (t :: xs ++ [u]), ys) := by
  obtain ⟨op, h⟩ := hpre false
  rw [memberSplit, List.append_assoc, h, List.append_assoc, List.singleton_append,
    memberSplitFrom_block ht hu hx hassign]

/-! ## Types -/

theorem Passes.cancel {xs ys zs z₁ z₂ : List Token} {op : Bool} (hx : Passes xs)
    (h : memberSplitFrom 0 false op (xs ++ ys ++ zs) = (xs ++ ys ++ z₁, z₂)) :
    ∃ op', memberSplitFrom 0 false op' (ys ++ zs) = (ys ++ z₁, z₂) := by
  obtain ⟨op', hpass⟩ := hx op
  rw [List.append_assoc, hpass, List.append_assoc, Prod.mk.injEq] at h
  exact ⟨op', Prod.ext (List.append_cancel_left h.1) h.2⟩

/-- Tokens at which a member does not end pass, when they assign nothing. -/
theorem passes_of_split {xs zs z₁ z₂ : List Token} {op : Bool} (hnest : Nested xs)
    (hxs : ∀ t ∈ xs, t.is "=" = false ∧ t.is "=>" = false)
    (h : memberSplitFrom 0 false op (xs ++ zs) = (xs ++ z₁, z₂)) (hz₁ : z₁ ≠ [])
    (hzs : startsWith zs "=" = false) : Passes xs := by
  induction hn : xs.length using Nat.strongRecOn generalizing xs op with
  | _ n ih =>
    subst hn
    cases xs with
    | nil => exact passes_nil
    | cons t xs =>
      -- a first chunk that passes leaves the same question about the rest
      have hstep : ∀ {chunk rest : List Token}, Passes chunk → chunk ≠ [] → t :: xs = chunk ++ rest →
          Nested rest → Passes (t :: xs) := by
        intro chunk rest hchunk hne heq hrest
        rw [heq] at h hxs ⊢
        obtain ⟨op', h'⟩ := hchunk.cancel h
        refine hchunk.append (ih rest.length ?_ hrest (fun u hu => hxs u (List.mem_append_right _ hu)) h'
          rfl)
        rw [heq, List.length_append]
        have := List.length_pos_iff.2 hne
        omega
      rcases unclosed_cases hnest with ⟨o, c, hp, ho, hopen, -, hnext⟩ | ⟨c, below, hnil, -⟩ |
        ⟨hnone, hclose, hnext⟩
      · obtain ⟨ys, u, ws, rfl, hys, hu, hws⟩ := exists_close xs hnext (by simp)
        by_cases hc : c = Bytes.rightBrace
        · subst hc
          have ho' : o = Bytes.leftBrace := ((bracketPairs_inj hp (by decide)).1).2 rfl
          subst ho'
          have hassign : startsWith (ws ++ zs) "=" = false := by
            cases ws with
            | nil => exact hzs
            | cons w ws => exact (hxs w (by simp)).1
          have hend := memberSplitFrom_block ho hu hys hassign op
          rw [show t :: (ys ++ u :: ws) ++ zs = t :: ys ++ u :: (ws ++ zs) by simp, hend,
            Prod.mk.injEq] at h
          have hlen := congrArg List.length h.1
          have hpos := List.length_pos_iff.2 hz₁
          simp only [List.length_append, List.length_cons, List.length_nil] at hlen
          omega
        · exact hstep (passes_pair hp hc ho hu hys) (by simp) (by simp) hws
      · cases hnil
      · refine hstep (passes_inert ?_) (by simp) List.singleton_append.symm hnext
        have hend : t.is ";" = false := by
          rw [Bool.eq_false_iff]
          intro hend
          rw [List.cons_append, memberSplitFrom_semicolon hend, Prod.mk.injEq] at h
          have hlen := congrArg List.length h.1
          have hpos := List.length_pos_iff.2 hz₁
          simp only [List.length_append, List.length_cons, List.length_nil] at hlen
          omega
        obtain ⟨hequals, harrow⟩ := hxs t List.mem_cons_self
        rw [Token.isInert, hnone, hclose, hend, hequals, harrow]
        rfl

theorem passes_attributes {ts : List Token} (h : Nested ts) :
    ∃ pre, ts = pre ++ (attributesSplit ts).2 ∧ Passes pre := by
  fun_induction attributesSplit ts with
  | case1 => exact ⟨[], rfl, passes_nil⟩
  | case2 t rest hopen hlt pair more =>
    rename_i ih
    have hp : ((("[" : Bytes), ("]" : Bytes))) ∈ bracketPairs := by decide
    have hnext : unclosed ["]"] rest = some [] := by
      rw [← h, unclosed_open [] rest (closer?_of_is hp hopen)]
    obtain ⟨ys, u, zs, rfl, hys, hu, hzs⟩ := exists_close rest hnext (by simp)
    have hpair : pair = (t :: ys ++ [u], zs) := splitPair_nested hp hopen hys hu zs
    rw [hpair] at ih
    obtain ⟨pre, hpre, hpass⟩ := ih hzs
    refine ⟨t :: ys ++ [u] ++ pre, ?_, (passes_pair hp (by decide) hopen hu hys).append hpass⟩
    change _ = _ ++ (attributesSplit pair.2).2
    rw [hpair, List.append_assoc, ← hpre, List.append_assoc]
    rfl
  | case3 t rest hopen => exact ⟨[], rfl, passes_nil⟩

theorem isName_of_isModifier {t : Token} (h : isModifier t = true) : t.isName = true := by
  unfold isModifier isWordOf at h
  rw [Bool.and_eq_true] at h
  have hwords : ∀ w ∈ modifierWords, w.head?.any beginsWord = true := by decide
  rw [Token.isName, h.1, hwords t.text (List.contains_iff_mem.1 h.2)]
  rfl

theorem Headed.passes {g type more rest : List Token} {word : Token} (h : Headed g type word more)
    (hsplit : memberSplit (g ++ rest) = (g, rest)) (hnest : Nested g) (hword : word.isName = true)
    (htype : Nested type) (hassign : ∀ t ∈ type, t.is "=" = false ∧ t.is "=>" = false) :
    Passes type := by
  obtain ⟨pre, hpre, hpass⟩ := passes_attributes hnest
  have hmods : Passes ((attributesSplit g).2.takeWhile isModifier) :=
    passes_of_inert fun t ht => isInert_of_isName (isName_of_isModifier (List.mem_takeWhile_imp ht))
  have hg : g = (pre ++ (attributesSplit g).2.takeWhile isModifier) ++ (type ++ word :: more) := by
    rw [← h.tokens_eq, List.append_assoc, List.takeWhile_append_dropWhile]
    exact hpre
  have hsplit' : memberSplitFrom 0 false false
      ((pre ++ (attributesSplit g).2.takeWhile isModifier) ++ (type ++ word :: more) ++ rest)
      = ((pre ++ (attributesSplit g).2.takeWhile isModifier) ++ (type ++ word :: more) ++ [], rest) := by
    rw [← hg, List.append_nil]
    exact hsplit
  obtain ⟨op, htail⟩ := (hpass.append hmods).cancel hsplit'
  rw [List.append_nil, List.append_assoc] at htail
  exact passes_of_split htype hassign htail (by simp) (isName_not_is hword (by decide))

end Flowsmith.Source
