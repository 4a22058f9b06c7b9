import Flowsmith.Proofs.FlowClass.Emits
import Flowsmith.FlowClass.Member
import Flowsmith.Proofs.Source.Parts

/-!
# The members of a flow class

The members that a code-behind class hands over are written one after the other, and are read as members
of the same names and forms.

* `typeTokens`, `PlainType` : the tokens of the type of a declaration, and types that can be written anew;
* `Member.signature`, `Portable` : the name and form of a member, and declarations that can be carried over;
* `emits_carried` : what one declaration becomes;
* `emits_members` : what the declarations of a class body become.
-/

namespace Flowsmith.Source

/-! ## Names and types of declarations -/

/-- A word is read as one wherever it stands on its line. -/
theorem lexeme_word {fresh : Bool} {c : UInt8} {s : Bytes} {k : Nat} (h : lexeme fresh c s = (.word, k))
    (fresh' : Bool) : lexeme fresh' c s = (.word, k) := by
  have hsharp : c ≠ '#'.toUInt8 := by
    rintro rfl
    exact absurd (beginsWord_of_lexeme h) (by decide)
  rw [lexeme_fresh fun hc => absurd hc hsharp, h]

theorem isWord_of_mem {s : Bytes} {pos : Nat} {fresh : Bool} {t : Token} (ht : t ∈ tokensFrom pos fresh s)
    (hw : t.isWord = true) : IsWord t.text := by
  obtain ⟨fresh', c, b, r, htext, hc, hlex⟩ := exists_lexeme ht
  have hkind : t.kind = .word := by simpa [Token.isWord] using hw
  rw [hkind] at hlex
  have halone : lexeme true c (b ++ []) = (.word, b.length) :=
    lexeme_word (lexeme_of_tame (.done r) (textEnds_of_word hlex) (by simp) (by simp) hlex) true
  have htokens := tokensFrom_token 0 true hc halone
  rw [tokensFrom_nil, List.append_nil] at htokens
  rw [htext]
  exact htokens

theorem dottedName_mem {word : Token} (rest : List Token) (hw : word.isWord = true) :
    ∃ t ∈ word :: rest, t.isWord = true ∧ (dottedName word.text rest).1 = t.text := by
  induction hlen : rest.length using Nat.strongRecOn generalizing word rest with
  | _ len ih =>
  rcases rest with _ | ⟨dot, _ | ⟨next, rest⟩⟩
  · exact ⟨word, List.mem_cons_self, hw, rfl⟩
  · exact ⟨word, List.mem_cons_self, hw, rfl⟩
  · rw [dottedName]
    split
    · rename_i hdot
      obtain ⟨t, ht, htw, heq⟩ := ih rest.length (by simp only [List.length_cons] at hlen; omega) rest
        ((Bool.and_eq_true _ _).mp hdot).2 rfl
      exact ⟨t, List.mem_cons_of_mem _ (List.mem_cons_of_mem _ ht), htw, heq⟩
    · exact ⟨word, List.mem_cons_self, hw, rfl⟩

def typeTokens (g : List Token) : List Token :=
  let ts := (attributesSplit g).2.dropWhile isModifier
  ts.take (ts.length - ((afterType? ts).getD []).length)

theorem Headed.typeTokens_eq {g type rest : List Token} {word : Token} (h : Headed g type word rest) :
    typeTokens g = type := by
  unfold typeTokens
  simp only [h.tokens_eq, h.type_eq, Option.getD_some]
  rw [List.length_append, Nat.add_sub_cancel, List.take_left]

def afterParams (g : List Token) : List Token :=
  match afterType? ((attributesSplit g).2.dropWhile isModifier) with
  | some (word :: rest) => (splitPair "(" ")" (afterName word rest)).2
  | _ => []

theorem Headed.afterParams_eq {g type rest : List Token} {word : Token} (h : Headed g type word rest) :
    afterParams g = (splitPair "(" ")" (afterName word rest)).2 := by
  unfold afterParams
  rw [h.tokens_eq, h.type_eq]

/-- A type that can be written anew: it closes the brackets it opens, assigns nothing, and holds neither
comments nor preprocessor lines. -/
structure PlainType (src : Bytes) (type : List Token) : Prop where
  nested : Nested type
  unassigned : ∀ t ∈ type, t.is "=" = false ∧ t.is "=>" = false
  solid : ∀ t ∈ tokens (raw src.slice type), t.isTrivia = false

instance (src : Bytes) (type : List Token) : Decidable (PlainType src type) :=
  decidable_of_iff (Nested type ∧ (∀ t ∈ type, t.is "=" = false ∧ t.is "=>" = false) ∧
    ∀ t ∈ tokens (raw src.slice type), t.isTrivia = false)
    ⟨fun h => ⟨h.1, h.2.1, h.2.2⟩, fun h => ⟨h.1, h.2, h.3⟩⟩

/-- A type without the comments of its declaration is read as its tokens. -/
theorem Headed.reads_type {src : Bytes} {pre post g type rest : List Token} {word : Token}
    (h : Headed g type word rest) (hends : ∀ t ∈ tokens src, t.isTerminated = true)
    (hsolid : solid (tokens src) = pre ++ type ++ post) (hplain : PlainType src type) (x : UInt8)
    (hx : isStop x = true) (hdot : x ≠ '.'.toUInt8) (hangle : x ≠ '>'.toUInt8) (r : Bytes) :
    ∃ f, Reads false (flat src.slice type) type (x :: r) f := by
  obtain ⟨t, more, rfl⟩ := List.exists_cons_of_ne_nil h.type_ne_nil
  have hpiece := piece_raw (a := t) hends hsolid rfl
  have hjunk := not_isJunk_of_afterType? h.type_eq
  have hsharp : t.is "#" = false := by
    have htype := h.type_eq
    rw [List.cons_append, afterType?] at htype
    split at htype
    · rename_i hopen
      exact Token.not_is hopen (by decide)
    · split at htype
      · rename_i hword
        have hmem : t ∈ solid (tokens src) := by rw [hsolid]; simp
        exact isName_not_is (isName_of_mem (mem_solid.1 hmem).1 hword) (by decide)
      · cases htype
  obtain ⟨hthin, hclosed⟩ := hpiece.collapse rfl hjunk hsharp
    (List.all_eq_true.2 fun t ht => by simp [hplain.solid t ht]) 0
  obtain ⟨f, hread⟩ := reads_closed (r := r) hx (fun t ht => (hclosed t ht).1)
    (fun _ _ => joins_eq_false _ _ hdot hangle) fun htrivia => by
      obtain ⟨t, ht, htt⟩ := (Option.any_eq_true _ _).1 htrivia
      rw [(hclosed t (List.mem_of_getLast? ht)).2] at htt
      cases htt
  exact ⟨f, hread.thin hthin⟩

end Flowsmith.Source

namespace Flowsmith.FlowClass

open Source (Token Nested Framed IsMember IsBody IsDotted IsWord PlainType PlainBody Piece solid tokens
  memberGroups)

/-! ## Members that can be written -/

def Member.signature : Member → Bytes × Option Source.Form
  | .method n _ _ => (n, some .method)
  | .property n _ _ _ _ => (n, some .property)
  | .callback n _ _ _ => (n, some .method)

/-- A declaration that can be carried over. A method that stays as it is always can. The type of a property
and the statements of a condition handler can be written anew, both have a name that is no keyword of
members, and the second parameter of a handler has an identifier for its name. -/
structure Portable (o : CarryOptions) (src : Bytes) (g : List Token) (m : Source.Member) : Prop where
  type : m.shape.form? = some .property → PlainType src (Source.typeTokens g)
  named : m.shape.form? = some .property ∨ m.isMethod = true ∧ isConditionHandler o.eventArgs m = true →
    m.name ≠ "this" ∧ m.name ≠ "operator"
  argument : m.isMethod = true → isConditionHandler o.eventArgs m = true → IsWord (argumentName m)
  body : m.isMethod = true → isConditionHandler o.eventArgs m = true → PlainBody (Source.afterParams g)

instance (o : CarryOptions) (src : Bytes) (g : List Token) (m : Source.Member) : Decidable (Portable o src g m) :=
  decidable_of_iff ((m.shape.form? = some .property → PlainType src (Source.typeTokens g)) ∧
    (m.shape.form? = some .property ∨ m.isMethod = true ∧ isConditionHandler o.eventArgs m = true →
      m.name ≠ "this" ∧ m.name ≠ "operator") ∧
    (m.isMethod = true → isConditionHandler o.eventArgs m = true → IsWord (argumentName m)) ∧
    (m.isMethod = true → isConditionHandler o.eventArgs m = true → PlainBody (Source.afterParams g)))
    ⟨fun h => ⟨h.1, h.2.1, h.2.2.1, h.2.2.2⟩, fun h => ⟨h.1, h.2, h.3, h.4⟩⟩

theorem visibility_eq (m : Source.Member) :
    ∃ ws : List Bytes, ws ≠ [] ∧ (∀ w ∈ ws, w ∈ Source.modifierWords) ∧
      (if m.visibility.isEmpty then ("private" : Bytes) else m.visibility) = Bytes.joinWith space ws := by
  split
  · exact ⟨["private"], by simp, by decide, rfl⟩
  · rename_i hne
    refine ⟨m.modifiers.filter Source.accessWords.contains, ?_, fun w hw => ?_, rfl⟩
    · intro hnil
      rw [Source.Member.visibility, hnil] at hne
      exact hne rfl
    · have hall : ∀ w ∈ Source.accessWords, w ∈ Source.modifierWords := by decide
      exact hall w (List.contains_iff_mem.1 (List.mem_filter.1 hw).2)

theorem carryMember_inv {o : CarryOptions} {m : Source.Member} {c : Carried}
    (h : carryMember o m = .ok c) :
    (c.members = []) ∨
    (m.shape.form? = some .property ∧ c.members = [propertyOf m]) ∨
    (m.isMethod = true ∧ (isConditionHandler o.eventArgs m = true ∧ c.members = [callbackOf m] ∨
      c.members = [.method m.name m.text m.column])) := by
  unfold carryMember at h
  split at h
  · rename_i accessors hshape
    have hform : m.shape.form? = some .property := by rw [hshape]; rfl
    dsimp only at h
    split at h
    · cases h
      exact .inr (.inl ⟨hform, rfl⟩)
    · split at h
      · cases h
      · cases h
        exact .inr (.inl ⟨hform, rfl⟩)
  · rename_i params body hshape
    have hmethod : m.isMethod = true := by rw [Source.Member.isMethod, hshape]
    split at h
    · rename_i hhandler
      cases h
      exact .inr (.inr ⟨hmethod, .inl ⟨hhandler, rfl⟩⟩)
    · cases h
      exact .inr (.inr ⟨hmethod, .inr rfl⟩)
  · cases h
    exact .inl rfl

theorem carryMember_one {o : CarryOptions} {m : Source.Member} {c : Carried} (h : carryMember o m = .ok c) :
    c.members = [] ∨ ∃ x, c.members = [x] := by
  rcases carryMember_inv h with hnone | ⟨-, hone⟩ | ⟨-, ⟨-, hone⟩ | hone⟩
  · exact .inl hnone
  · exact .inr ⟨_, hone⟩
  · exact .inr ⟨_, hone⟩
  · exact .inr ⟨_, hone⟩

theorem Carried.members_append (a b : Carried) : (a.append b).members = a.members ++ b.members := rfl

theorem selfContained_statements {src owner : Bytes} {pre post g : List Token} {m : Source.Member}
    (hends : ∀ t ∈ tokens src, t.isTerminated = true) (hsolid : solid (tokens src) = pre ++ g ++ post)
    (hm : Source.memberOf src.slice owner g = .ok m) (hmethod : m.isMethod = true) (hnest : Nested g)
    (hplain : PlainBody (Source.afterParams g)) : Source.SelfContained m.body.statements := by
  obtain ⟨type, word, more, hhead, -, -, -, hshape⟩ := Source.memberOf_inv hm
    (Source.isCarried_of_signature (Source.signature_of_isMethod hmethod))
  rw [hhead.afterParams_eq] at hplain
  rcases hshape with ⟨-, body, hbody, hshape⟩ | ⟨accessors, hshape⟩
  · have hbodyEq : m.body = body := by rw [Source.Member.body, hshape]
    have hsuffix : (Source.splitPair "(" ")" (Source.afterName word more)).2 <:+ g :=
      (((Source.splitPair_suffix _ _ _).trans (Source.afterName_suffix word more)).trans
        ((List.suffix_cons word more).trans (List.suffix_append type _))).trans hhead.suffix
    obtain ⟨stack, hstack⟩ := Source.unclosed_suffix hnest hsuffix
    obtain ⟨front, rfl⟩ := hsuffix
    have hcut : solid (tokens src) = (pre ++ front)
        ++ (Source.splitPair "(" ")" (Source.afterName word more)).2 ++ post := by
      rw [hsolid]
      simp
    rw [hbodyEq]
    exact Source.selfContained_body hends hcut hstack hplain hbody
  · rw [Source.Member.isMethod, hshape] at hmethod
    cases hmethod

/-! ## Declarations and what they become -/

/-- Members that are written one after the other and read as members of their names and forms. -/
def EmitsAll (c : Class) (level : Nat) (ms : List Member) : Prop :=
  Emits (ms.flatMap fun x => [Bytes.newline] ++ x.render level c) fun out =>
    IsBody (ms.map Member.signature) out ∧ (ms = [] → out = [])

theorem emitsAll_nil (c : Class) (level : Nat) : EmitsAll c level [] :=
  emits_nil.mono fun _ _ h => ⟨h ▸ Source.isBody_nil, fun _ => h⟩

theorem EmitsAll.cons {c : Class} {level : Nat} {x : Member} {ms : List Member} {name : Bytes}
    {form : Source.Form} {final : Prop} (hms : EmitsAll c level ms) (hsig : x.signature = (name, some form))
    (hx : Emits (x.render level c) (IsMember name form final)) (hfinal : final → ms = []) :
    EmitsAll c level (x :: ms) := by
  refine hx.blankLine.append hms fun a b ha hb => ⟨?_, by simp⟩
  rw [List.map_cons, hsig]
  exact ha.body hb.1 fun h => hb.2 (hfinal h)

section

variable {src owner : Bytes} {o : CarryOptions} (c : Class) (level : Nat)
  (hends : ∀ t ∈ tokens src, t.isTerminated = true)
  (hattr : IsDotted c.propertyAttribute) (hargs : IsDotted c.eventArgsType)

include hends hattr hargs

/-- **What one declaration becomes** is read as a member of its name. -/
theorem emits_carried {pre post g rest : List Token} {pos column : Nat} {text : Bytes} {m : Source.Member}
    {first : Carried} {x : Member} (hsolid : solid (tokens src) = pre ++ g ++ post)
    (hm : Source.memberOf src.slice owner g = .ok m) (hpiece : Piece pos text g)
    (hsplit : Source.memberSplit (g ++ rest) = (g, rest)) (hnest : Nested g)
    (hport : Portable o src g m)
    (hfirst : carryMember o { m with text := text, column := column } = .ok first)
    (hx : first.members = [x]) :
    ∃ form, x.signature = (m.name, some form) ∧
      Emits (x.render level c) (IsMember m.name form (rest = [])) := by
  have hmem : ∀ t ∈ g, t ∈ tokens src ∧ t.isTrivia = false := fun t ht => by
    refine Source.mem_solid.1 ?_
    rw [hsolid]
    simp [ht]
  have hwords : ∀ t ∈ g, t.isWord = true → t.isName = true := fun t ht =>
    Source.isName_of_mem (hmem t ht).1
  -- a declaration that is carried over has a type, and a name that is a word of the source
  have hname : m.shape.isCarried = true → ∃ type word more, Source.Headed g type word more ∧
      m.type = Source.flat src.slice type ∧ IsWord m.name := by
    intro hc
    obtain ⟨type, word, more, hhead, hname, htype, -, -⟩ := Source.memberOf_inv hm hc
    refine ⟨type, word, more, hhead, htype, ?_⟩
    obtain ⟨t, ht, hw, heq⟩ := Source.dottedName_mem more hhead.isWord
    rw [hname, heq]
    exact Source.isWord_of_mem (hmem t (hhead.suffix.subset (List.mem_append_right _ ht))).1 hw
  rcases carryMember_inv hfirst with hnil | ⟨hform, hone⟩ | ⟨hmethod, ⟨hhandler, hone⟩ | hone⟩
  · rw [hnil] at hx
    cases hx
  · rw [hone] at hx
    obtain rfl := List.head_eq_of_cons_eq hx
    have hsig : m.signature = (m.name, some .property) := congrArg (m.name, ·) hform
    obtain ⟨type, word, more, hhead, htype, hisWord⟩ := hname (Source.isCarried_of_signature hsig)
    have hplain := hport.type hform
    rw [hhead.typeTokens_eq] at hplain
    obtain ⟨front, hfront⟩ := hhead.suffix
    have hsplitSolid : solid (tokens src) = (pre ++ front) ++ type ++ (word :: more ++ post) := by
      rw [hsolid, ← hfront]
      simp
    have hsub : ∀ t ∈ type, t ∈ g := fun t ht =>
      hhead.suffix.subset (List.mem_append_left _ ht)
    have hvis : (if m.modifiers.contains "private" then ("private" : Bytes) else "public") = "public" ∨
        (if m.modifiers.contains "private" then ("private" : Bytes) else "public") = "private" := by
      split
      · exact .inr rfl
      · exact .inl rfl
    refine ⟨.property, rfl, ?_⟩
    have hword := hwords word (hhead.suffix.subset (by simp)) hhead.isWord
    have hread : ∀ r, ∃ f, Source.Reads false m.type type (space ++ r) f := fun r => by
      rw [htype]
      exact hhead.reads_type hends hsplitSolid hplain 0x20 (by decide) (by decide) (by decide) r
    have hemits := emits_property (c := c) level (!m.modifiers.contains "virtual")
      (droppedAccessors { m with text := text, column := column }) hattr hvis hhead hread
      (fun t ht => (hmem t (hsub t ht)).2) hplain.nested
      (hhead.passes hsplit hnest hword hplain.nested hplain.unassigned) hisWord (hport.named (.inl hform))
    exact hemits.mono fun ts _ h => h.mono False.elim
  · rw [hone] at hx
    obtain rfl := List.head_eq_of_cons_eq hx
    have hcarried := Source.isCarried_of_signature (Source.signature_of_isMethod hmethod)
    obtain ⟨-, -, -, -, -, hisWord⟩ := hname hcarried
    obtain ⟨ws, hne, hws, hvis⟩ := visibility_eq { m with text := text, column := column }
    refine ⟨.method, rfl, ?_⟩
    have hemits := emits_callback (c := c) level hne hws hargs hisWord (hport.named (.inr ⟨hmethod, hhandler⟩))
      (hport.argument hmethod hhandler)
      (selfContained_statements hends hsolid hm hmethod hnest (hport.body hmethod hhandler))
    rw [← hvis] at hemits
    have hstatements : callbackOf { m with text := text, column := column } = .callback m.name
        (if m.visibility.isEmpty then ("private" : Bytes) else m.visibility) (argumentName m)
        m.body.statements := by
      unfold callbackOf Source.Body.statements
      cases hbody : m.body <;> simp only [Source.Member.body] at hbody ⊢ <;> rw [hbody] <;> rfl
    rw [hstatements]
    exact hemits.mono fun ts _ h => h.mono False.elim
  · rw [hone] at hx
    obtain rfl := List.head_eq_of_cons_eq hx
    exact ⟨.method, rfl, emits_method level column hpiece hm hmethod hsplit hnest hwords⟩

/-- **The members of a class body.** What they become is read as members of the same names and forms. -/
theorem emits_members {pre ts post trivia : List Token} {boundary : Nat} {ms : List Source.Member}
    {carried : Carried} (htrivia : ∀ t ∈ trivia, t ∈ tokens src) (hts : Framed src pre ts post boundary)
    (hnest : Nested ts) (hms : Source.membersOf src.slice owner trivia boundary ts = .ok ms)
    (hport : ∀ g ∈ memberGroups ts, ∀ m, Source.memberOf src.slice owner g = .ok m → Portable o src g m)
    (hcarried : carryMembers o ms = .ok carried) : EmitsAll c level carried.members := by
  induction hlen : ts.length using Nat.strongRecOn generalizing pre ts boundary ms carried with
  | _ len ih =>
  cases ts with
  | nil =>
    rw [Source.membersOf] at hms
    cases hms
    cases hcarried
    exact emitsAll_nil c level
  | cons t rest =>
    rcases Source.membersOf_inv hms with ⟨hsemi, hms⟩ | ⟨hsemi, g, rest', m, ms', b, happ, ht, hb, hsplit,
      hm, hms', rfl⟩
    · -- a semicolon is no member
      rw [memberGroups, if_pos hsemi] at hport
      obtain ⟨hopen, hclose⟩ := Source.plain_of_is hsemi (by decide)
      have hnest' : Nested rest := by rwa [Nested, Source.unclosed_plain [] rest hopen hclose] at hnest
      exact ih rest.length (by simp at hlen; omega) (hts.next (g := [t]) rfl) hnest' hms hport hcarried rfl
    · rw [Source.memberGroups_cons hsemi happ hsplit] at hport
      have hbound := hts.after t List.mem_cons_self
      have hlt : rest'.length < len := by
        have hlength := congrArg List.length happ
        have := List.length_pos_iff.2 fun hnil : g = [] => by simp [hnil] at ht
        simp only [List.length_append] at hlength
        omega
      rw [happ] at hts hnest
      obtain ⟨hgnest, hrnest⟩ := Source.memberSplit_nested hnest
      rw [hsplit] at hgnest hrnest
      obtain ⟨first, hfirst, hcarried⟩ := bind_eq_ok hcarried
      obtain ⟨others, hothers, hcarried⟩ := bind_eq_ok hcarried
      cases hcarried
      have hrest := ih rest'.length hlt (hts.next hb) hrnest hms'
        (fun g' hg' => hport g' (List.mem_cons_of_mem _ hg')) hothers rfl
      rcases carryMember_one hfirst with hnone | ⟨x, hone⟩
      · rwa [Carried.members_append, hnone]
      · have hcut : solid (tokens src) = pre ++ g ++ (rest' ++ post) := by simp [hts.solid_eq]
        obtain ⟨form, hsig, hemits⟩ := emits_carried c level hends hattr hargs hcut hm
          (Source.piece_member hends htrivia hcut ht hb hts.before hbound) hsplit hgnest
          (hport g List.mem_cons_self m hm) hfirst hone
        rw [Carried.members_append, hone]
        refine hrest.cons hsig hemits fun hnil => ?_
        subst hnil
        rw [Source.membersOf] at hms'
        cases hms'
        cases hothers
        rfl

end

end Flowsmith.FlowClass
