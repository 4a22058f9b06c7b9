import Flowsmith.Proofs.Source.ReadBack
import Flowsmith.Proofs.Source.Tiling

/-!
# Reading back a source

A source of the grammar lists using directives, namespaces and a class with its members. The scanner finds
the end of each member where the grammar ends it, and so reads the whole source back as what it declares.

* `Final` : tokens that end a member; `final_member` : those of a declaration do;
* `memberOf_place`, `membersOf_place` : a member, and the members of a class;
* `classOf_tokens`, `outlineFrom_place` : the class, and what stands in front of it;
* `Listing.stands`, `outline_text` : the text of a source has the tokens of its parts, and is read back.
-/

namespace Flowsmith.Source

open Bytes (isLetterByte)

/-! ## The end of a member -/

/-- Tokens that end a member, unless a value is assigned after them. -/
def Final (xs : List Token) : Prop :=
  ∀ ys, startsWith ys "=" = false → memberSplitFrom 0 false false (xs ++ ys) = (xs, ys)

theorem Steady.final {xs ys : List Token} (hx : Steady xs) (hy : Final ys) : Final (xs ++ ys) := by
  intro zs hzs
  rw [List.append_assoc, hx, hy zs hzs]

theorem final_semicolon {t : Token} (ht : t.is ";" = true) : Final [t] :=
  fun ys _ => memberSplitFrom_semicolon ht false false ys

theorem final_block {t u : Token} {xs : List Token} (ht : t.is Bytes.leftBrace = true)
    (hu : u.is Bytes.rightBrace = true) (hx : Nested xs) : Final (t :: xs ++ [u]) := by
  intro ys hys
  rw [List.append_assoc]
  exact memberSplitFrom_block ht hu hx hys false

/-- A value goes on to the first semicolon outside of all brackets. -/
theorem goes_value {ts : List Token} (h : Nested ts) (hfree : TopFree ";" ts) (op : Bool) :
    ∃ op', Goes memberStep ⟨0, true, op⟩ ts ⟨0, true, op'⟩ := by
  revert hfree op
  refine nested_induction (P := fun ts => TopFree ";" ts → ∀ op, ∃ op',
    Goes memberStep ⟨0, true, op⟩ ts ⟨0, true, op'⟩) ?_ ?_ ?_ h
  · exact fun _ op => ⟨op, .nil _⟩
  · intro t ts hn hc _ ih hfree op
    obtain ⟨hsemi, hrest⟩ := hfree.tail hn hc
    obtain ⟨op', hop'⟩ := ih hrest (op || t.is "operator")
    exact ⟨op', .cons (fun _ => memberStep_outer (opens_of_closer? hn) hc hsemi) hop'⟩
  · intro o c t u xs zs hp ht hu hxs _ _ ih hfree op
    obtain ⟨op', hop'⟩ := ih (hfree.after hp ht hu hxs) op
    rw [List.append_cons]
    exact ⟨op', (goes_brackets hp ht hxs hu (.inr rfl) op).append hop'⟩

/-- An assignment and the semicolon after it end a member. -/
theorem final_value {t u : Token} {xs : List Token} (ht : t.is "=" = true) (hx : Nested xs)
    (hfree : TopFree ";" xs) (hu : u.is ";" = true) : Final (t :: xs ++ [u]) := by
  intro ys _
  obtain ⟨hopen, hclose⟩ := plain_of_is ht (by decide)
  obtain ⟨op', hop'⟩ := goes_value hx hfree (false || t.is "operator")
  have hequals : ∀ equals, memberStep ⟨0, false, false⟩ t equals = some ⟨0, true, false || t.is "operator"⟩ :=
    fun _ => by
      rw [memberStep_outer (opens_of_closer? hopen) hclose (Token.not_is ht (by decide)), ht]
      rfl
  rw [List.append_assoc, (Goes.cons hequals hop').memberSplit, List.singleton_append,
    memberSplitFrom_semicolon hu]

section

variable {ends : Bytes → Prop} (owner : Name)

theorem steady_names {ts : List Token} (h : ∀ t ∈ ts, t.isName = true ∧ t.is "operator" = false) :
    Steady ts := by
  induction ts with
  | nil => exact fun op ys => rfl
  | cons t ts ih =>
    obtain ⟨hname, hop⟩ := h t List.mem_cons_self
    exact (steady_inert (isInert_of_isName hname) hop).append (ih fun x hx => h x (List.mem_cons_of_mem _ hx))

theorem steady_modifiers (ws : List (WordOf modifierWords)) (pos : Nat) :
    Steady (place pos (wordChunks ws)) := by
  refine steady_names fun t ht => ⟨isName_place_words ws pos isWord_modifierWords t ht, ?_⟩
  obtain ⟨-, htext⟩ := mem_place_words ws pos t ht
  exact not_is_of_text_ne fun h => absurd (h ▸ htext) (by decide)

theorem place_call (ps : List (ParamText ends)) (qs : List Chunk) (pos : Nat) :
    place pos (.mark "(" :: (paramChunks ps ++ (.mark ")" :: qs)))
      = ⟨.mark, "(", pos⟩ :: place (pos + 1) (paramChunks ps)
        ++ ⟨.mark, ")", pos + 1 + (render (paramChunks ps)).length⟩
        :: place (pos + 1 + (render (paramChunks ps)).length + 1) qs := by
  rw [place_cons, place_append, place_cons]
  rfl

theorem steady_call (ps : List (ParamText ends)) {ys : List Token} (hys : Final ys) (pos pos' : Nat) :
    Final (⟨.mark, "(", pos⟩ :: place (pos + 1) (paramChunks ps) ++ ⟨.mark, ")", pos'⟩ :: ys) := by
  have hsteady : Steady (⟨.mark, "(", pos⟩ :: place (pos + 1) (paramChunks ps) ++ [⟨.mark, ")", pos'⟩]) :=
    steady_pair mem_parens (by decide) rfl rfl (nested_params ps _)
  have hfinal := hsteady.final hys
  rwa [List.append_assoc, List.singleton_append] at hfinal

theorem final_body (body : Option (Code ends)) (pos : Nat) : Final (place pos (bodyChunks body)) := by
  cases body with
  | none => exact final_semicolon rfl
  | some c =>
    rw [place_body]
    exact final_block rfl rfl (c.nested_tokens _)

theorem place_init (init : Initializer ends) (pos : Nat) :
    place pos (valueChunks (some init.text) ++ [Chunk.mark ";"])
      = (⟨.mark, "=", pos + 1⟩ : Token) :: codeTokens (pos + 3) init.text
        ++ [(⟨.mark, ";", pos + 3 + init.text.length⟩ : Token)] := by
  rw [place_append, place_value]
  have hlen : pos + (render (valueChunks (some init.text))).length = pos + 3 + init.text.length := by
    simp only [valueChunks, render_cons, render_nil, Chunk.text, List.length_append, List.append_nil]
    change pos + (1 + (2 + init.text.length)) = _
    omega
  rw [hlen]
  rfl

/-- **A declaration ends a member.** -/
theorem final_form (form : MemberForm ends) (pos : Nat) : Final (place pos (form.chunks owner)) := by
  cases form with
  | field type name init =>
    rw [MemberForm.chunks, place_append]
    refine (type.steady_place pos).final ((name.steady_token _).final ?_)
    cases init with
    | none => exact final_semicolon rfl
    | some init =>
      rw [Option.map_some, place_init]
      refine final_value rfl (init.nested_tokens _) ?_ rfl
      rw [codeTokens_eq]
      exact init.whole.shift _
  | method type name params body =>
    rw [MemberForm.chunks, place_append]
    refine (type.steady_place pos).final ((name.steady_token _).final ?_)
    rw [place_call]
    exact steady_call params (final_body body _) _ _
  | constructor params body =>
    rw [MemberForm.chunks]
    refine (owner.steady_token _).final ?_
    rw [place_call]
    exact steady_call params (final_body (some body) _) _ _
  | property type name accessors =>
    rw [MemberForm.chunks, place_append]
    refine (type.steady_place pos).final ((name.steady_token _).final ?_)
    rw [place_gap, place_cons, place_append]
    exact final_block rfl rfl (nested_accessors accessors _)

theorem final_member (m : MemberText ends) (pos : Nat) : Final (place pos (m.chunks owner)) := by
  rw [MemberText.chunks, place_append]
  exact (steady_modifiers m.modifiers pos).final (final_form owner m.form _)

/-! ## Declarations -/

theorem isModifier_place (ws : List (WordOf modifierWords)) (pos : Nat) :
    ∀ t ∈ place pos (wordChunks ws), isModifier t = true := isWordOf_place_words ws pos

theorem attributesSplit_modifiers (ws : List (WordOf modifierWords)) (pos : Nat) (w : Name) (pos' : Nat)
    (ts : List Token) :
    attributesSplit (place pos (wordChunks ws) ++ w.token pos' :: ts)
      = ([], place pos (wordChunks ws) ++ w.token pos' :: ts) :=
  attributesSplit_words (by decide) ws pos (w.token_not_is pos' (Or.inl (by decide))) ts

/-- A declaration with a type and a name is read from what comes after its name. -/
theorem memberOf_typed (owner : Bytes) (ws : List (WordOf modifierWords)) (type : TypeText .type) (name : Name)
    {src : Bytes} {pos pos' pos'' : Nat} (h : At src pos' type.text) {next : Token} (rest : List Token)
    (hdot : next.is "." = false) (hless : next.is "<" = false) :
    memberOf src.slice owner (place pos (wordChunks ws)
        ++ (place pos' type.chunks ++ name.token pos'' :: next :: rest)) =
      let m : Member := { name := name.text, type := type.text, modifiers := ws.map (·.1) }
      let call := splitPair "(" ")" (next :: rest)
      let block := splitPair Bytes.leftBrace Bytes.rightBrace (next :: rest)
      if next.is "(" then
        (bodyOf src.slice call.2).map fun body =>
          { m with shape := .method (paramsOf src.slice call.1.tail.dropLast) body }
      else if next.is Bytes.leftBrace then
        (accessorsOf src.slice block.1.tail.dropLast).map fun accessors =>
          { m with shape := .property accessors }
      else if next.is "=>" then
        .ok { m with shape := .property [{ keyword := "get", body := raw src.slice (dropSemicolon rest) }] }
      else .ok { m with shape := .field } := by
  obtain ⟨w, tail, hhead⟩ := type.place_head pos'
  have hattr := attributesSplit_modifiers ws pos w pos' (tail ++ name.token pos'' :: next :: rest)
  rw [← List.cons_append, ← hhead] at hattr
  have hheaded : Headed (place pos (wordChunks ws) ++ (place pos' type.chunks ++ name.token pos'' :: next :: rest))
      (place pos' type.chunks) (name.token pos'') (next :: rest) := by
    refine headed_of_modifiers (congrArg Prod.snd hattr) (isModifier_place ws pos)
      (type.afterType?_place pos' (name.isName_token pos'') _) (name.isName_token pos'')
      ⟨name.token_not_is _ (Or.inr (by decide)),
        name.token_not_is _ (Or.inr (by decide))⟩ fun t ht => ?_
    rw [hhead] at ht
    cases ht
    exact first_of_not_reserved (w.isName_token pos') w.not_reserved
  have hwords : ∀ t ∈ place pos' type.chunks ++ [name.token pos''], t.isWord = true → t.isName = true := by
    intro t ht hw
    rcases List.mem_append.1 ht with ht | ht
    · exact type.sound_place pos' t ht hw
    · exact List.mem_singleton.1 ht ▸ name.isName_token pos''
  have hmods := (takeWhile_append_cons (tail ++ name.token pos'' :: next :: rest) (isModifier_place ws pos)
    (w.not_isWordOf modifierWords_kept pos')).1
  rw [← List.cons_append, ← hhead] at hmods
  have hhead : headOf src.slice (place pos (wordChunks ws)
        ++ (place pos' type.chunks ++ name.token pos'' :: next :: rest)) (place pos' type.chunks) name.text
      = { name := name.text, type := type.text, modifiers := ws.map (·.1) } := by
    unfold headOf
    rw [hattr, hmods, map_text_place_words, type.flat_place h]
    rfl
  have hname : (dottedName (name.token pos'').text (next :: rest)).1 = name.text :=
    congrArg Prod.fst (dottedName_of_not_dot name.text rest hdot)
  rw [hheaded.memberOf hwords, hname, hhead, afterName_of_mark rest hdot hless]
  rfl

theorem splitPair_call (ps : List (ParamText ends)) (pos pos' : Nat) (ys : List Token) :
    splitPair "(" ")" (⟨.mark, "(", pos⟩ :: place (pos + 1) (paramChunks ps) ++ ⟨.mark, ")", pos'⟩ :: ys)
      = (⟨.mark, "(", pos⟩ :: place (pos + 1) (paramChunks ps) ++ [⟨.mark, ")", pos'⟩], ys) :=
  splitPair_nested mem_parens rfl (nested_params ps _) rfl ys

/-- What is read of a declaration of the class `owner`. -/
def MemberText.declared (m : MemberText ends) : Member :=
  { shape := m.form.shape, name := m.form.name owner, type := m.form.type,
    modifiers := m.modifiers.map (·.1) }

theorem call_place (ps : List (ParamText ends)) (body : Option (Code ends)) {src : Bytes} {pos : Nat}
    (h : At src pos (render (.mark "(" :: (paramChunks ps ++ (.mark ")" :: bodyChunks body))))) :
    ∃ rest, place pos (.mark "(" :: (paramChunks ps ++ (.mark ")" :: bodyChunks body)))
        = ⟨.mark, "(", pos⟩ :: rest ∧
      paramsOf src.slice (splitPair "(" ")" (⟨.mark, "(", pos⟩ :: rest)).1.tail.dropLast = ps.map (·.param) ∧
      bodyOf src.slice (splitPair "(" ")" (⟨.mark, "(", pos⟩ :: rest)).2 = .ok (Code.body body) := by
  simp only [render_cons, render_append] at h
  have hpair := splitPair_call ps pos (pos + 1 + (render (paramChunks ps)).length)
    (place (pos + 1 + (render (paramChunks ps)).length + 1) (bodyChunks body))
  refine ⟨place (pos + 1) (paramChunks ps) ++ ⟨.mark, ")", pos + 1 + (render (paramChunks ps)).length⟩
    :: place (pos + 1 + (render (paramChunks ps)).length + 1) (bodyChunks body),
    place_call ps (bodyChunks body) pos, ?_, ?_⟩
  · rw [← List.cons_append, hpair, List.cons_append, List.tail_cons, List.dropLast_concat]
    exact paramsOf_place ps h.right.left
  · rw [← List.cons_append, hpair]
    exact bodyOf_place body h.right.right.right

/-- Accessors between braces are read back. -/
theorem accessors_place (as : List (AccessorText ends)) {src : Bytes} {pos : Nat}
    (h : At src pos (render (Chunk.mark Bytes.leftBrace ::
      (accessorChunks as ++ [Chunk.gap " ", .mark Bytes.rightBrace])))) :
    ∃ rest, place pos (Chunk.mark Bytes.leftBrace ::
    (accessorChunks as ++ [Chunk.gap " ", .mark Bytes.rightBrace]))
        = ⟨.mark, Bytes.leftBrace, pos⟩ :: rest ∧
      accessorsOf src.slice (splitPair Bytes.leftBrace Bytes.rightBrace
        (⟨.mark, Bytes.leftBrace, pos⟩ :: rest)).1.tail.dropLast = .ok (as.map (·.accessor)) := by
  rw [render_cons, render_append] at h
  have hpair := splitPair_nested (t := ⟨.mark, Bytes.leftBrace, pos⟩) mem_braces rfl
    (nested_accessors as (pos + 1))
    (u := ⟨.mark, Bytes.rightBrace, pos + 1 + (render (accessorChunks as)).length + 1⟩) rfl []
  refine ⟨_, by rw [place_cons, place_append]; rfl, ?_⟩
  refine (congrArg (fun p => accessorsOf src.slice p.1.tail.dropLast) hpair).trans ?_
  change accessorsOf src.slice (_ ++ [_]).dropLast = _
  rw [List.dropLast_concat]
  exact accessorsOf_place as h.right.left

theorem memberOf_constructor (ws : List (WordOf modifierWords)) {cut : Nat → Nat → Bytes} {pos pos' : Nat}
    {next : Token} {rest : List Token} (hnext : next.is "(" = true) {params : List Parameter} {body : Body}
    (hparams : paramsOf cut (splitPair "(" ")" (next :: rest)).1.tail.dropLast = params)
    (hbody : bodyOf cut (splitPair "(" ")" (next :: rest)).2 = .ok body) :
    memberOf cut owner.text (place pos (wordChunks ws) ++ owner.token pos' :: next :: rest)
      = .ok { shape := .constructor params body, name := owner.text, modifiers := ws.map (·.1) } := by
  obtain ⟨hmods, hrest⟩ := takeWhile_append_cons (next :: rest) (isModifier_place ws pos)
    (owner.not_isWordOf modifierWords_kept pos')
  have htype := owner.not_isWordOf typeWords_kept pos'
  have hevent : (owner.token pos').is "event" = false := owner.token_not_is pos' (Or.inr (by decide))
  have htilde : (owner.token pos').is "~" = false := owner.token_not_is pos' (Or.inl (by decide))
  have howner : ((owner.token pos').isWord && (owner.token pos').text == owner.text
      && startsWith (next :: rest) "(") = true := by
    rw [startsWith, List.head?_cons, Option.any_some, hnext, Bool.and_true]
    exact beq_self_eq_true owner.text
  unfold memberOf
  simp only [attributesSplit_modifiers, hmods, hrest, htype, hevent, htilde, howner, if_true, if_false,
    Bool.false_eq_true, hbody, hparams, map_text_place_words]
  rfl

/-- **A declaration is read back.** -/
theorem memberOf_place (m : MemberText ends) {src : Bytes} {pos : Nat}
    (h : At src pos (render (m.chunks owner))) :
    memberOf src.slice owner.text (place pos (m.chunks owner)) = .ok (m.declared owner) := by
  obtain ⟨ws, form⟩ := m
  rw [MemberText.chunks, render_append] at h
  rw [MemberText.chunks, place_append]
  have hform := h.right
  cases form with
  | field type name init =>
    rw [MemberForm.chunks, render_append] at hform
    rw [MemberForm.chunks, place_append, place_gap, place_cons]
    cases init with
    | none => exact memberOf_typed owner.text ws type name hform.left _ rfl rfl
    | some init =>
      rw [Option.map_some, place_init]
      exact memberOf_typed owner.text ws type name hform.left _ rfl rfl
  | method type name params body =>
    rw [MemberForm.chunks, render_append] at hform
    obtain ⟨rest, hrest, hparams, hbody⟩ := call_place params body hform.right.right.right
    rw [MemberForm.chunks, place_append, place_gap, place_cons, hrest]
    refine (memberOf_typed owner.text ws type name hform.left rest rfl rfl).trans ?_
    dsimp only
    rw [if_pos (by rfl), hparams, hbody]
    rfl
  | constructor params body =>
    obtain ⟨rest, hrest, hparams, hbody⟩ := call_place params (some body) hform.right
    rw [MemberForm.chunks, place_cons, hrest]
    exact memberOf_constructor owner ws rfl hparams hbody
  | property type name accessors =>
    rw [MemberForm.chunks, render_append] at hform
    obtain ⟨rest, hrest, haccessors⟩ := accessors_place accessors hform.right.right.right.right
    rw [MemberForm.chunks, place_append, place_gap, place_cons, place_gap, hrest]
    refine (memberOf_typed owner.text ws type name hform.left rest rfl rfl).trans ?_
    dsimp only
    rw [if_neg (by exact Bool.false_ne_true), if_pos (by rfl), haccessors]
    rfl

/-! ## Members -/

/-- A declaration goes from a word to a mark or a block. -/
theorem MemberText.extent (m : MemberText ends) :
    ∃ w ps, m.chunks owner = .word w :: ps ∧ IsWord w ∧ Closes (m.chunks owner) := by
  have hform : ∃ (w : Name) (ps : List Chunk), m.form.chunks owner = .word w.text :: ps := by
    cases m.form with
    | constructor params body => exact ⟨owner, _, rfl⟩
    | field type name init | method type name params body | property type name accessors =>
      obtain ⟨w, ps, hps⟩ := type.chunks_head
      exact ⟨w, _, by rw [MemberForm.chunks, hps, List.cons_append]⟩
  have hbody : ∀ body : Option (Code ends), Closes (bodyChunks body) := by
    intro body
    cases body with
    | none => exact closes_mark ";"
    | some c => exact (closes_block c.text).append [.gap " "]
  have hcloses : Closes (m.form.chunks owner) := by
    cases m.form with
    | field type name init =>
      have hvalue := (closes_mark ";").append (valueChunks (init.map (·.text)))
      exact (hvalue.append [.gap " ", .word name.text]).append type.chunks
    | method type name params body =>
      have hcall := ((hbody body).append [.mark ")"]).append (paramChunks params)
      exact (hcall.append [.gap " ", .word name.text, .mark "("]).append type.chunks
    | constructor params body =>
      have hcall := ((hbody (some body)).append [.mark ")"]).append (paramChunks params)
      exact hcall.append [.word owner.text, .mark "("]
    | property type name accessors =>
      have hblock := ((closes_mark Bytes.rightBrace).append [.gap " "]).append (accessorChunks accessors)
      exact (hblock.append [.gap " ", .word name.text, .gap " ", .mark Bytes.leftBrace]).append type.chunks
  obtain ⟨w, ps, hps⟩ := hform
  rw [MemberText.chunks]
  cases m.modifiers with
  | nil => exact ⟨w.text, ps, hps, w.isWord, hcloses⟩
  | cons v vs =>
    exact ⟨v.1, _, rfl, isWord_modifierWords v.1 v.2, hcloses.append (wordChunks (v :: vs))⟩

end

theorem first_byte {s : Bytes} {pos : Nat} {fresh : Bool} {t : Token} (ht : t ∈ tokensFrom pos fresh s) :
    ∃ i x, t.start = pos + i ∧ s[i]? = some x ∧ isBlankByte x = false := by
  match s with
  | [] => rw [tokensFrom_nil] at ht; cases ht
  | c :: s =>
    rcases tokensFrom_cases pos fresh c s with ⟨_, heq⟩ | ⟨hc, kind, b, r, rfl, _, heq⟩
    · rw [heq] at ht
      obtain ⟨i, x, hi, hx, hblank⟩ := first_byte ht
      exact ⟨i + 1, x, by omega, by rw [List.getElem?_cons_succ]; exact hx, hblank⟩
    · rw [heq] at ht
      rcases List.mem_cons.1 ht with rfl | ht
      · exact ⟨0, c, rfl, rfl, hc⟩
      · obtain ⟨i, x, hi, hx, hblank⟩ := first_byte ht
        refine ⟨(c :: b).length + i, x, by omega, ?_, hblank⟩
        rw [← List.cons_append, List.getElem?_append_right (by omega), Nat.add_sub_cancel_left]
        exact hx
termination_by s.length

theorem textStart_blank {src g : Bytes} {trivia : List Token} (htrivia : ∀ c ∈ trivia, c ∈ tokens src)
    {pos : Nat} (h : At src pos g) (hg : ∀ x ∈ g, isBlankByte x = true) :
    textStart src.slice trivia pos (pos + g.length) = pos + g.length := by
  have hnone : trivia.find? (fun c => decide (pos ≤ c.start) && decide (c.stop ≤ pos + g.length)
      && (src.slice pos c.start).contains Bytes.newline) = none := by
    rw [List.find?_eq_none]
    intro c hc hcond
    simp only [Bool.and_eq_true, decide_eq_true_eq] at hcond
    obtain ⟨⟨hle, hstop⟩, -⟩ := hcond
    obtain ⟨i, x, hi, hx, hblank⟩ := first_byte (htrivia c hc)
    have hlt := (le_start_of_mem (htrivia c hc)).2
    obtain ⟨r, hr⟩ := h
    have hget : g[i - pos]? = some x := by
      have hdrop : (src.drop pos)[i - pos]? = some x := by
        rw [List.getElem?_drop, show pos + (i - pos) = i by omega]
        exact hx
      rw [← hr, List.getElem?_append_left (by omega)] at hdrop
      exact hdrop
    rw [hg x (List.mem_of_getElem? hget)] at hblank
    cases hblank
  unfold textStart
  rw [hnone]

/-- What stands after a line feed and eight spaces is in column eight. -/
theorem columnOf_line {src : Bytes} {pos : Nat} (h : At src pos ("\n        " : Bytes)) :
    columnOf src.slice (pos + 9) = 8 := by
  obtain ⟨r, hr⟩ := h
  have hlen : pos ≤ src.length := by
    have := congrArg List.length hr
    rw [List.length_append, List.length_drop] at this
    change 9 + r.length = _ at this
    omega
  have htake : src.slice 0 (pos + 9) = src.take pos ++ ("\n        " : Bytes) := by
    change src.take (pos + 9) = _
    have hline : (("\n        " : Bytes) ++ r).take 9 = ("\n        " : Bytes) := by
      exact List.take_left' rfl
    rw [List.take_add, ← hr, hline]
  have hspaces : ((src.take pos ++ ("\n        " : Bytes)).reverse.takeWhile (· != Bytes.newline)).length = 8 := by
    rw [List.reverse_append]
    rfl
  rw [columnOf, htake, Bytes.afterLast, hspaces, List.length_append, List.length_take, Nat.min_eq_left hlen]
  change pos + 9 - (pos + 9 - 8) = 8
  omega

section

variable {ends : Bytes → Prop} (owner : Name)

theorem memberChunks_cons (m : MemberText ends) (ms : List (MemberText ends)) :
    memberChunks owner (m :: ms) = .gap "\n        " :: (m.chunks owner ++ memberChunks owner ms) := rfl

theorem startsWith_members (ms : List (MemberText ends)) (pos : Nat) :
    startsWith (place pos (memberChunks owner ms)) "=" = false := by
  cases ms with
  | nil => rfl
  | cons m ms =>
    obtain ⟨w, ps, hps, hw, -⟩ := m.extent owner
    rw [memberChunks_cons, place_gap, hps]
    exact isName_not_is (t := ⟨.word, w, _⟩) (isName_of_isWord hw) (by decide)

/-- **Members are read back.** -/
theorem membersOf_place (ms : List (MemberText ends)) {src : Bytes} {trivia : List Token}
    (htrivia : ∀ c ∈ trivia, c ∈ tokens src) {pos : Nat} (h : At src pos (render (memberChunks owner ms))) :
    membersOf src.slice owner.text trivia pos (place pos (memberChunks owner ms))
      = .ok (ms.map (·.member owner)) := by
  induction ms generalizing pos with
  | nil =>
    change membersOf _ _ _ _ [] = _
    rw [membersOf]
    rfl
  | cons m ms ih =>
    rw [memberChunks_cons, render_cons, render_append] at h
    rw [memberChunks_cons, place_gap, place_append]
    obtain ⟨w, ps, hps, hw, hcloses⟩ := m.extent owner
    have hspans : Spans (pos + 9) (render (m.chunks owner)).length (place (pos + 9) (m.chunks owner)) := by
      rw [hps] at hcloses ⊢
      exact spans_place hcloses _
    obtain ⟨a, b, ha, hstart, hb, hstop⟩ := hspans
    have hfirst : a.is ";" = false := by
      rw [hps] at ha
      cases ha
      exact isName_not_is (t := ⟨.word, w, _⟩) (isName_of_isWord hw) (by decide)
    have hsplit := final_member owner m (pos + 9) _
      (startsWith_members owner ms (pos + 9 + (render (m.chunks owner)).length))
    have hm : At src (pos + 9) (render (m.chunks owner)) := h.right.left
    have hms : At src (pos + 9 + (render (m.chunks owner)).length) (render (memberChunks owner ms)) :=
      h.right.right
    have htext : textStart src.slice trivia pos (pos + 9) = pos + 9 :=
      textStart_blank htrivia h.left (List.all_eq_true.1 rfl)
    refine (membersOf_append ha hb hfirst hsplit (memberOf_place owner m hm)).trans ?_
    rw [hstart, htext, hstop, columnOf_line h.left, hm.slice, ih hms]
    rfl

theorem nested_form (form : MemberForm ends) (pos : Nat) : Nested (place pos (form.chunks owner)) := by
  have hname : ∀ (w : Name) (pos : Nat) {ts : List Token}, Nested ts → Nested (w.token pos :: ts) := by
    intro w pos ts hts
    obtain ⟨hopen, hclose⟩ := plain_of_isName (w.isName_token pos)
    exact hts.cons hopen hclose
  have hbody : ∀ (body : Option (Code ends)) (pos : Nat), Nested (place pos (bodyChunks body)) := by
    intro body pos
    cases body with
    | none => rfl
    | some c =>
      rw [place_body]
      exact nested_block c _
  have hcall : ∀ (ps : List (ParamText ends)) (body : Option (Code ends)) (pos : Nat),
      Nested (place pos (.mark "(" :: (paramChunks ps ++ (.mark ")" :: bodyChunks body)))) := by
    intro ps body pos
    rw [place_call]
    exact Nested.pair mem_parens rfl rfl (nested_params ps _) (hbody body _)
  cases form with
  | field type name init =>
    rw [MemberForm.chunks, place_append]
    refine (type.nested_place pos).append (hname name _ ?_)
    cases init with
    | none => rfl
    | some init =>
      rw [Option.map_some, place_init]
      exact (Nested.cons rfl rfl (init.nested_tokens _)).append rfl
  | method type name params body =>
    rw [MemberForm.chunks, place_append]
    exact (type.nested_place pos).append (hname name _ (hcall params body _))
  | constructor params body => exact hname owner _ (hcall params (some body) _)
  | property type name accessors =>
    rw [MemberForm.chunks, place_append]
    refine (type.nested_place pos).append (hname name _ ?_)
    rw [place_gap, place_cons, place_append]
    exact Nested.pair mem_braces rfl rfl (nested_accessors accessors _) nested_nil

theorem nested_members (ms : List (MemberText ends)) (pos : Nat) :
    Nested (place pos (memberChunks owner ms)) := by
  induction ms generalizing pos with
  | nil => exact nested_nil
  | cons m ms ih =>
    rw [memberChunks_cons, place_gap, place_append, MemberText.chunks, place_append]
    have hmods := nested_names (isName_place_words m.modifiers (pos + 9) isWord_modifierWords)
    exact (hmods.append (nested_form owner m.form _)).append (ih _)

end

/-! ## The class -/

theorem classOf_tokens {cut : Nat → Nat → Bytes} (trivia before : List Token) (keyword name brace : Token)
    {close : Token} {bases members : List Token} (ys : List Token)
    (hbases : ∀ t ∈ bases, t.is Bytes.leftBrace = false ∧ t.is "where" = false)
    (hfirst : ∀ t, bases.head? = some t → t.is ":" = true) (hbrace : brace.is Bytes.leftBrace = true)
    (hclose : close.is Bytes.rightBrace = true) (hnest : Nested members) {ms : List Member}
    (hms : membersOf cut name.text trivia brace.stop members = .ok ms) :
    classOf cut trivia before keyword (name :: (bases ++ (brace :: members ++ close :: ys))) = .ok
      { name := name.text
        modifiers := (before.takeWhile isModifier).reverse.map (·.text)
        bases := flat cut bases.tail
        start := ((before.takeWhile isModifier).reverse.head?.map (·.start)).getD keyword.start
        keywordStart := keyword.start
        members := ms } := by
  have hless : startsWith (bases ++ (brace :: members ++ close :: ys)) "<" = false := by
    cases bases with
    | nil => exact Token.not_is hbrace (by decide)
    | cons t bases => exact Token.not_is (hfirst t rfl) (by decide)
  have hdrop : (bases ++ (brace :: members ++ close :: ys)).dropWhile (!·.is Bytes.leftBrace)
      = brace :: members ++ close :: ys :=
    (takeWhile_append_cons (members ++ close :: ys) (fun t ht => by simp [(hbases t ht).1])
      (by simp [hbrace])).2
  have hpair := splitPair_nested mem_braces hbrace hnest hclose ys
  have hflat : (if startsWith (bases ++ (brace :: members ++ close :: ys)) ":" then
      flat cut ((bases ++ (brace :: members ++ close :: ys)).tail.takeWhile
        fun t => !(t.is Bytes.leftBrace || t.is "where")) else []) = flat cut bases.tail := by
    cases bases with
    | nil =>
      have hcolon : startsWith ([] ++ (brace :: members ++ close :: ys)) ":" = false :=
        Token.not_is hbrace (by decide)
      have hnil : flat cut [] = [] := by
        change Bytes.joinWith [0x20] (Bytes.wordsFrom [] []) = []
        rw [wordsFrom_nil]
        rfl
      rw [hcolon, if_neg Bool.false_ne_true, List.tail_nil, hnil]
    | cons t bases =>
      have hcolon : startsWith (t :: bases ++ (brace :: members ++ close :: ys)) ":" = true := hfirst t rfl
      have htake := (takeWhile_append_cons (t := brace) (p := fun t => !(t.is Bytes.leftBrace || t.is "where"))
        (members ++ close :: ys) (fun x hx => by
          obtain ⟨h₁, h₂⟩ := hbases x (List.mem_cons_of_mem t hx)
          simp [h₁, h₂]) (by simp [hbrace])).1
      rw [hcolon, if_pos rfl, List.cons_append, List.tail_cons, List.tail_cons]
      exact congrArg (flat cut) htake
  unfold classOf
  rw [List.cons_append] at hdrop hpair hless hflat
  simp only [List.tail_cons, hless, Bool.false_eq_true, if_false, List.cons_append, hdrop, hflat, hpair,
    List.dropLast_concat]
  change (membersOf cut name.text trivia brace.stop members >>= _) = _
  rw [hms]
  rfl

/-! ## Using directives and the namespace -/

def Dotted.path (d : Dotted) : TypeText .path := d.more.foldl .member (.name d.first)

theorem Dotted.chunks_path (d : Dotted) : d.path.chunks = d.chunks := by
  have hmore : ∀ (ws : List Name) (p : TypeText .path), (ws.foldl TypeText.member p).chunks
      = p.chunks ++ ws.flatMap fun w => [Chunk.mark ".", .word w.text] := by
    intro ws
    induction ws with
    | nil => intro p; exact (List.append_nil _).symm
    | cons w ws ih =>
      intro p
      rw [List.foldl_cons, ih, TypeText.chunks, List.append_assoc]
      rfl
  exact hmore d.more (.name d.first)

theorem Dotted.flat_place (d : Dotted) {src : Bytes} {pos : Nat} (h : At src pos d.text) :
    flat src.slice (place pos d.chunks) = d.text := by
  have htext : d.path.text = d.text := congrArg render d.chunks_path
  rw [← htext] at h ⊢
  rw [← d.chunks_path]
  exact d.path.flat_place h

theorem Dotted.not_is_place (d : Dotted) (pos : Nat) :
    ∀ t ∈ place pos d.chunks, t.is ";" = false ∧ t.is Bytes.leftBrace = false := by
  rw [← d.chunks_path]
  intro t ht
  exact ⟨d.path.not_is_place pos t ht _ (by decide), d.path.not_is_place pos t ht _ (by decide)⟩

/-- Tokens, in reverse, at whose end a declaration can begin. -/
def Ended (before : List Token) : Prop :=
  ∀ t, before.head? = some t → t.is ";" = true ∨ t.is Bytes.leftBrace = true

theorem take_concat (xs : List Token) (t : Token) (ys : List Token) :
    (xs ++ t :: ys).take (xs.length + 1) = xs ++ [t] ∧ (xs ++ t :: ys).drop (xs.length + 1) = ys := by
  have hlen : xs.length + 1 = (xs ++ [t]).length := by simp
  rw [List.append_cons, hlen, List.take_left, List.drop_left]
  exact ⟨rfl, rfl⟩

theorem outlineFrom_pass (cut : Nat → Nat → Bytes) (trivia : List Token) (found : Outline)
    {ts ys : List Token} (before : List Token) (hts : ∀ t ∈ ts, t.text ∈ modifierWords) :
    outlineFrom cut trivia found before (ts ++ ys)
      = outlineFrom cut trivia found (ts.reverse ++ before) ys := by
  induction ts generalizing before with
  | nil => rfl
  | cons t ts ih =>
    have hnot : ∀ w ∈ (["using", "namespace", "class"] : List Bytes), t.is w = false := by
      intro w hw
      have hall : ∀ w ∈ (["using", "namespace", "class"] : List Bytes), w ∉ modifierWords := by decide
      exact not_is_of_text_ne fun h => hall w hw (h ▸ hts t List.mem_cons_self)
    rw [List.cons_append, outlineFrom, hnot "using" (by decide), hnot "namespace" (by decide),
      hnot "class" (by decide), Bool.false_and, Bool.false_and, Bool.false_and,
      if_neg Bool.false_ne_true, if_neg Bool.false_ne_true, if_neg Bool.false_ne_true,
      ih _ fun x hx => hts x (List.mem_cons_of_mem _ hx), List.reverse_cons, List.append_assoc]
    rfl

section

variable {src : Bytes} (trivia : List Token)

theorem outlineFrom_using (d : Dotted) (found : Outline) (before : List Token) {pos : Nat}
    (h : At src (pos + 6) d.text) (semi : Token) (hsemi : semi.is ";" = true) (ys : List Token) :
    outlineFrom src.slice trivia found before
        (⟨.word, "using", pos⟩ :: (place (pos + 6) d.chunks ++ semi :: ys))
      = outlineFrom src.slice trivia { found with usings := found.usings ++ [d.text] }
        (semi :: ((place (pos + 6) d.chunks).reverse ++ ⟨.word, "using", pos⟩ :: before)) ys := by
  have hinner : ∀ t ∈ place (pos + 6) d.chunks, (!t.is ";") = true := fun t ht => by
    simp [(d.not_is_place (pos + 6) t ht).1]
  have htarget := (takeWhile_append_cons (t := semi) ys hinner (by simp [hsemi])).1
  obtain ⟨htake, hdrop⟩ := take_concat (place (pos + 6) d.chunks) semi ys
  rw [outlineFrom, if_pos (by rfl)]
  simp only [htarget, htake, hdrop, d.flat_place h, List.reverse_append, List.reverse_singleton]
  rfl

theorem outlineFrom_space (d : Dotted) (found : Outline) (hspace : found.space = []) (before : List Token)
    {pos : Nat} (h : At src (pos + 10) d.text) (brace : Token) (hbrace : brace.is Bytes.leftBrace = true)
    (ys : List Token) :
    outlineFrom src.slice trivia found before
        (⟨.word, "namespace", pos⟩ :: (place (pos + 10) d.chunks ++ brace :: ys))
      = outlineFrom src.slice trivia { found with space := d.text }
        (brace :: ((place (pos + 10) d.chunks).reverse ++ ⟨.word, "namespace", pos⟩ :: before)) ys := by
  have hinner : ∀ t ∈ place (pos + 10) d.chunks, (!(t.is Bytes.leftBrace || t.is ";")) = true := by
    intro t ht
    obtain ⟨h₁, h₂⟩ := d.not_is_place (pos + 10) t ht
    simp [h₁, h₂]
  have htarget := (takeWhile_append_cons (t := brace) ys hinner (by simp [hbrace])).1
  obtain ⟨htake, hdrop⟩ := take_concat (place (pos + 10) d.chunks) brace ys
  rw [outlineFrom, if_neg (by exact Bool.false_ne_true), if_pos (by rw [hspace]; rfl)]
  simp only [htarget, htake, hdrop, d.flat_place h, List.reverse_append, List.reverse_singleton]
  rfl

theorem outlineFrom_modifiers (ws : List (WordOf modifierWords)) (found : Outline) (before : List Token)
    (pos : Nat) (ys : List Token) :
    outlineFrom src.slice trivia found before (place pos (wordChunks ws) ++ ys)
      = outlineFrom src.slice trivia found ((place pos (wordChunks ws)).reverse ++ before) ys :=
  outlineFrom_pass src.slice trivia found before fun t ht => (mem_place_words ws pos t ht).2

theorem outlineFrom_usings (ds : List Dotted) (found : Outline) {before : List Token} (hbefore : Ended before)
    {pos : Nat} (h : At src pos (render (usingChunks ds))) (ys : List Token) :
    ∃ before', Ended before' ∧
      outlineFrom src.slice trivia found before (place pos (usingChunks ds) ++ ys)
        = outlineFrom src.slice trivia { found with usings := found.usings ++ ds.map (·.text) } before' ys := by
  induction ds generalizing found before pos with
  | nil => exact ⟨before, hbefore, by rw [List.map_nil, List.append_nil]; rfl⟩
  | cons d ds ih =>
    have hchunks : usingChunks (d :: ds)
        = .word "using" :: .gap " " :: (d.chunks ++ (.mark ";" :: .gap "\n" :: usingChunks ds)) := by
      simp [usingChunks]
    rw [hchunks] at h ⊢
    simp only [render_cons, render_append] at h
    have hd : At src (pos + 6) d.text := h.right.right.left
    have hsemi : Ended (⟨.mark, ";", pos + 6 + d.text.length⟩
        :: ((place (pos + 6) d.chunks).reverse ++ ⟨.word, "using", pos⟩ :: before)) := by
      intro t ht
      cases ht
      exact Or.inl rfl
    obtain ⟨before', hended, hrest⟩ := ih { found with usings := found.usings ++ [d.text] } hsemi
      h.right.right.right.right.right
    refine ⟨before', hended, ?_⟩
    have hplace : place pos (.word "using" :: .gap " " :: (d.chunks ++ (.mark ";" :: .gap "\n" :: usingChunks ds)))
          ++ ys
        = ⟨.word, "using", pos⟩ :: (place (pos + 6) d.chunks ++ ⟨.mark, ";", pos + 6 + d.text.length⟩
          :: (place (pos + 6 + d.text.length + 2) (usingChunks ds) ++ ys)) := by
      rw [place_cons, place_gap, place_append, List.append_assoc, List.append_assoc]
      rfl
    rw [hplace, outlineFrom_using trivia d found before hd _ rfl]
    refine hrest.trans ?_
    rw [List.map_cons, List.append_assoc]
    rfl

theorem outlineFrom_spaces (space : Option Dotted) (found : Outline) (hspace : found.space = [])
    {before : List Token} (hbefore : Ended before) {pos : Nat} (h : At src pos (render (spaceChunks space)))
    (ys : List Token) :
    ∃ before', Ended before' ∧
      outlineFrom src.slice trivia found before (place pos (spaceChunks space) ++ ys)
        = outlineFrom src.slice trivia { found with space := (space.map (·.text)).getD [] } before' ys := by
  cases space with
  | none => exact ⟨before, hbefore, by rw [Option.map_none, Option.getD_none, ← hspace]; rfl⟩
  | some d =>
    simp only [spaceChunks, render_cons, render_append] at h
    have hd : At src (pos + 10) d.text := h.right.right.left
    have hplace : place pos (spaceChunks (some d)) ++ ys
        = ⟨.word, "namespace", pos⟩ :: (place (pos + 10) d.chunks
          ++ ⟨.mark, Bytes.leftBrace, pos + 10 + d.text.length + 1⟩ :: ys) := by
      rw [spaceChunks, place_cons, place_gap, place_append, List.append_assoc, List.append_assoc]
      rfl
    have hbrace : Ended (⟨.mark, Bytes.leftBrace, pos + 10 + d.text.length + 1⟩
        :: ((place (pos + 10) d.chunks).reverse ++ ⟨.word, "namespace", pos⟩ :: before)) := by
      intro t ht
      cases ht
      exact Or.inr rfl
    refine ⟨_, hbrace, ?_⟩
    rw [hplace]
    exact outlineFrom_space trivia d found hspace before hd _ rfl ys

end

/-! ## The class in its source -/

section

variable {ends : Bytes → Prop} (l : Listing ends) {src : Bytes} (trivia : List Token)

def Listing.classChunks : List Chunk :=
  .word "class" :: .gap " " :: .word l.name.text :: (baseChunks l.bases
    ++ (.gap "\n    " :: .mark Bytes.leftBrace :: (memberChunks l.name l.members ++ l.tailChunks)))

theorem Listing.chunks_eq :
    l.chunks = usingChunks l.usings ++ (spaceChunks l.space ++ (wordChunks l.modifiers ++ l.classChunks)) := by
  unfold Listing.chunks Listing.headChunks
  rw [List.append_assoc]
  rfl

theorem takeWhile_modifiers (ws : List (WordOf modifierWords)) (pos : Nat) {front : List Token}
    (hfront : Ended front) :
    (((place pos (wordChunks ws)).reverse ++ front).takeWhile isModifier).reverse
      = place pos (wordChunks ws) := by
  have hall : ∀ t ∈ (place pos (wordChunks ws)).reverse, isModifier t = true :=
    fun t ht => isModifier_place ws pos t (List.mem_reverse.1 ht)
  rw [List.takeWhile_append_of_pos hall]
  have hnil : front.takeWhile isModifier = [] := by
    cases front with
    | nil => rfl
    | cons t front =>
      refine List.takeWhile_cons_of_neg ?_
      have hnot : ∀ w, t.is w = true → w ∉ modifierWords → isModifier t = false := by
        intro w ht hw
        simp only [Token.is, Bool.and_eq_true, beq_iff_eq] at ht
        exact not_isWordOf_of_not_mem (ht.2 ▸ hw)
      rcases hfront t rfl with ht | ht
      · simp [hnot _ ht (by decide)]
      · simp [hnot _ ht (by decide)]
  rw [hnil, List.append_nil, List.reverse_reverse]

theorem place_bases (bases : Option (TypeText .list)) (pos : Nat) :
    (∀ t ∈ place pos (baseChunks bases), t.is Bytes.leftBrace = false ∧ t.is "where" = false) ∧
      ∀ t, (place pos (baseChunks bases)).head? = some t → t.is ":" = true := by
  cases bases with
  | none => exact ⟨fun t ht => (by cases ht), fun t ht => (by cases ht)⟩
  | some bs =>
    refine ⟨fun t ht => ?_, fun t ht => (by cases ht; rfl)⟩
    rcases List.mem_cons.1 ht with rfl | ht
    · exact ⟨rfl, rfl⟩
    · exact ⟨bs.not_is_place _ t ht _ (by decide), bs.not_is_place _ t ht _ (by decide)⟩

theorem flat_bases (bases : Option (TypeText .list)) {pos : Nat} (h : At src pos (render (baseChunks bases))) :
    flat src.slice (place pos (baseChunks bases)).tail = (bases.map (·.text)).getD [] := by
  cases bases with
  | none =>
    change Bytes.joinWith [0x20] (Bytes.wordsFrom [] []) = []
    rw [wordsFrom_nil]
    rfl
  | some bs => exact bs.flat_place h.right.right.right

theorem start_modifiers (ws : List (WordOf modifierWords)) (pos : Nat) :
    ((place pos (wordChunks ws)).head?.map (·.start)).getD (pos + (render (wordChunks ws)).length) = pos := by
  cases ws with
  | nil => rfl
  | cons w ws => rfl

theorem beginsClass_modifiers (ws : List (WordOf modifierWords)) (pos : Nat) {front : List Token}
    (hfront : Ended front) (w : Name) (pos' : Nat) (ys : List Token) :
    beginsClass ((place pos (wordChunks ws)).reverse ++ front) (w.token pos' :: ys) = true := by
  have hnot : ∀ t, ((place pos (wordChunks ws)).reverse ++ front).head? = some t →
      t.is ":" = false ∧ t.is "," = false ∧ t.is "." = false := by
    intro t ht
    rw [List.head?_append, Option.or_eq_some_iff] at ht
    rcases ht with ht | ⟨-, ht⟩
    · obtain ⟨-, htext⟩ := mem_place_words ws pos t (List.mem_reverse.1 (List.mem_of_mem_head? ht))
      refine ⟨?_, ?_, ?_⟩ <;> exact not_is_of_text_ne fun h => absurd (h ▸ htext) (by decide)
    · rcases hfront t ht with ht | ht
      · exact ⟨Token.not_is ht (by decide), Token.not_is ht (by decide), Token.not_is ht (by decide)⟩
      · exact ⟨Token.not_is ht (by decide), Token.not_is ht (by decide), Token.not_is ht (by decide)⟩
  have hbefore : (((place pos (wordChunks ws)).reverse ++ front).head?.any
      fun t => t.is ":" || t.is "," || t.is ".") = false := by
    cases hhead : ((place pos (wordChunks ws)).reverse ++ front).head? with
    | none => rfl
    | some t =>
      obtain ⟨h₁, h₂, h₃⟩ := hnot t hhead
      simp [h₁, h₂, h₃]
  rw [beginsClass, hbefore]
  rfl

/-- **The class is read back.** -/
theorem outlineFrom_place (htrivia : ∀ c ∈ trivia, c ∈ tokens src) (found : Outline) {front : List Token}
    (hfront : Ended front) {pos : Nat} (h : At src pos (render (wordChunks l.modifiers ++ l.classChunks))) :
    outlineFrom src.slice trivia found front (place pos (wordChunks l.modifiers ++ l.classChunks))
      = .ok { found with class? := some { l.cls with
          start := pos
          keywordStart := pos + (render (wordChunks l.modifiers)).length } } := by
  rw [place_append, outlineFrom_modifiers]
  rw [render_append] at h
  have hclass := h.right
  have hstart := start_modifiers l.modifiers pos
  generalize pos + (render (wordChunks l.modifiers)).length = k at hclass hstart ⊢
  simp only [Listing.classChunks, render_cons, render_append] at hclass
  -- where the bases and the block of the class begin
  let q := k + 6 + l.name.text.length
  let b := q + (render (baseChunks l.bases)).length + 5
  obtain ⟨close, ys, hclose, htail⟩ : ∃ (close : Token) (ys : List Token), close.is Bytes.rightBrace = true ∧
      place (b + 1 + (render (memberChunks l.name l.members)).length) l.tailChunks = close :: ys :=
    ⟨_, _, rfl, rfl⟩
  have hafter : place k l.classChunks = ⟨.word, "class", k⟩ :: (l.name.token (k + 6)
      :: (place q (baseChunks l.bases) ++ (⟨.mark, Bytes.leftBrace, b⟩
        :: place (b + 1) (memberChunks l.name l.members) ++ close :: ys))) := by
    rw [Listing.classChunks, place_cons, place_gap, place_cons, place_append, place_gap, place_cons,
      place_append, ← htail]
    rfl
  have hbases : At src q (render (baseChunks l.bases)) := hclass.right.right.right.left
  have hmembers : At src (b + 1) (render (memberChunks l.name l.members)) :=
    hclass.right.right.right.right.right.right.left
  have hread := classOf_tokens trivia ((place pos (wordChunks l.modifiers)).reverse ++ front)
    ⟨.word, "class", k⟩ (l.name.token (k + 6)) ⟨.mark, Bytes.leftBrace, b⟩ ys (place_bases l.bases q).1
    (place_bases l.bases q).2 rfl hclose (nested_members l.name l.members (b + 1))
    (membersOf_place l.name l.members htrivia hmembers)
  rw [takeWhile_modifiers l.modifiers pos hfront, map_text_place_words, flat_bases l.bases hbases] at hread
  rw [hafter, outlineFrom, if_neg (by exact Bool.false_ne_true), if_neg (by exact Bool.false_ne_true),
    beginsClass_modifiers l.modifiers pos hfront, Bool.and_true, if_pos (by rfl), hread]
  change Except.ok { found with class? := some { l.cls with
    start := ((place pos (wordChunks l.modifiers)).head?.map Token.start).getD k
    keywordStart := k } } = _
  rw [hstart]

/-- A source whose texts are read as they stand is read back. -/
theorem outline_of_stands (h : Each (fun r p => p.Stands r) l.chunks []) :
    Source.outline l.text = .ok l.outline := by
  have hsolid : solid (tokens l.text) = place 0 l.chunks := by
    obtain ⟨fresh', heq⟩ := solid_render h 0 true
    rw [List.append_nil, tokensFrom_nil] at heq
    exact heq.trans (List.append_nil _)
  have hat : At l.text 0 (render l.chunks) := List.prefix_rfl
  have htrivia : ∀ c ∈ (tokens l.text).filter (·.isTrivia), c ∈ tokens l.text :=
    fun c hc => (List.mem_filter.1 hc).1
  unfold Source.outline
  change outlineFrom l.text.slice _ {} [] (solid (tokens l.text)) = _
  rw [hsolid, l.chunks_eq, place_append, place_append]
  rw [l.chunks_eq, render_append, render_append] at hat
  have hnil : Ended [] := fun t ht => by cases ht
  obtain ⟨before, hbefore, husings⟩ := outlineFrom_usings ((tokens l.text).filter (·.isTrivia)) l.usings {}
    hnil hat.left _
  obtain ⟨front, hfront, hspace⟩ := outlineFrom_spaces ((tokens l.text).filter (·.isTrivia)) l.space
    { usings := [] ++ l.usings.map (·.text) } rfl hbefore hat.right.left _
  rw [husings]
  refine hspace.trans ?_
  refine (outlineFrom_place l _ htrivia _ hfront hat.right.right).trans ?_
  have hlen : 0 + (render (usingChunks l.usings)).length + (render (spaceChunks l.space)).length
      = (render l.headChunks).length := by
    rw [Listing.headChunks, render_append, List.length_append, Nat.zero_add]
  rw [hlen]
  rfl

end

/-! ## Texts that are read as they stand -/

section

theorem stops_space (r : Bytes) : Stops (0x20 :: r) := stops_cons r (by decide)

theorem stops_paren (r : Bytes) : Stops ('('.toUInt8 :: r) := stops_cons r (by decide)

theorem stops_semicolon (r : Bytes) : Stops (';'.toUInt8 :: r) := stops_cons r (by decide)

theorem stops_newline (r : Bytes) : Stops (Bytes.newline :: r) := stops_cons r (by decide)

theorem stands_words_append {words : List Bytes} (hwords : ∀ w ∈ words, IsWord w) (ws : List (WordOf words))
    {ps : List Chunk} {r : Bytes} (h : Each (fun r p => p.Stands r) ps r) :
    Each (fun r p => p.Stands r) (wordChunks ws ++ ps) r :=
  (each_append _ _ _).2 ⟨stands_words ws hwords _, h⟩

theorem TypeText.stands_append {g : Grade} (t : TypeText g) {ps : List Chunk} {r : Bytes}
    (hstop : Stops (render ps ++ r)) (h : Each (fun r p => p.Stands r) ps r) :
    Each (fun r p => p.Stands r) (t.chunks ++ ps) r :=
  (each_append _ _ _).2 ⟨t.stands hstop, h⟩

theorem ParamText.stands (p : ParamText Settled) {r : Bytes} {x : UInt8} {r' : Bytes} (hr : r = x :: r')
    (hx : x ∈ closingMarks) : Each (fun r p => p.Stands r) p.chunks r := by
  refine stands_words_append isWord_paramWords _ (p.type.stands_append (stops_space _) ?_)
  refine ⟨stands_space _, ?_⟩
  cases p.default with
  | none => exact ⟨⟨p.name.isWord, by rw [hr]; exact stops_cons _ (isStop_of_closing hx)⟩, trivial⟩
  | some d => exact ⟨⟨p.name.isWord, stops_space _⟩, stands_space _, ⟨d.ends, x, r', hr, hx⟩, trivial⟩

theorem stands_params (ps : List (ParamText Settled)) (r : Bytes) :
    Each (fun r p => p.Stands r) (paramChunks ps) (')'.toUInt8 :: r) := by
  induction ps with
  | nil => trivial
  | cons p ps ih =>
    cases ps with
    | nil => exact p.stands rfl (by decide)
    | cons q ps =>
      exact (each_append _ _ _).2 ⟨p.stands rfl (x := ','.toUInt8) (by decide), stands_mark (by decide) _,
        stands_space _, ih⟩

theorem stands_body (body : Option (Code Settled)) (r : Bytes) :
    Each (fun r p => p.Stands r) (bodyChunks body) r := by
  cases body with
  | none => exact ⟨stands_mark (by decide) _, trivial⟩
  | some c => exact ⟨stands_space _, c.ends, trivial⟩

theorem stops_body (body : Option (Code Settled)) (r : Bytes) : Stops (render (bodyChunks body) ++ r) := by
  cases body with
  | none => exact stops_semicolon _
  | some c => exact stops_space _

theorem stands_call (ps : List (ParamText Settled)) (body : Option (Code Settled)) (r : Bytes) :
    Each (fun r p => p.Stands r) (.mark "(" :: (paramChunks ps ++ (.mark ")" :: bodyChunks body))) r :=
  ⟨stands_mark (by decide) _, (each_append _ _ _).2 ⟨stands_params ps _, stands_mark (by decide) _,
    stands_body body r⟩⟩

theorem stands_accessors (as : List (AccessorText Settled)) (r : Bytes) :
    Each (fun r p => p.Stands r) (accessorChunks as) r := by
  induction as with
  | nil => trivial
  | cons a as ih =>
    refine (each_append (.gap " " :: a.chunks) (accessorChunks as) r).2 ⟨⟨stands_space _, ?_⟩, ih⟩
    exact stands_words_append isWord_accessorWords _
      ⟨⟨a.keyword.isWord, stops_body a.body _⟩, stands_body a.body _⟩

theorem stands_form (owner : Name) (form : MemberForm Settled) (r : Bytes) :
    Each (fun r p => p.Stands r) (form.chunks owner) r := by
  cases form with
  | field type name init =>
    refine type.stands_append (stops_space _) ⟨stands_space _, ?_⟩
    cases init with
    | none => exact ⟨⟨name.isWord, stops_semicolon _⟩, stands_mark (by decide) _, trivial⟩
    | some init =>
      exact ⟨⟨name.isWord, stops_space _⟩, stands_space _,
        ⟨init.ends, ';'.toUInt8, r, rfl, by decide⟩, stands_mark (by decide) _, trivial⟩
  | method type name params body =>
    exact type.stands_append (stops_space _) ⟨stands_space _,
      ⟨name.isWord, stops_paren _⟩, stands_call params body r⟩
  | constructor params body =>
    exact ⟨⟨owner.isWord, stops_paren _⟩, stands_call params (some body) r⟩
  | property type name accessors =>
    refine type.stands_append (stops_space _) ⟨stands_space _,
      ⟨name.isWord, stops_space _⟩, stands_space _, stands_mark (by decide) _, ?_⟩
    exact (each_append _ _ _).2 ⟨stands_accessors accessors _, stands_space _, stands_mark (by decide) _, trivial⟩

theorem stands_line {g : Bytes} (hg : ∀ c ∈ g, isBlankByte c = true) (r : Bytes) : (Chunk.gap g).Stands r := hg

theorem stands_members (owner : Name) (ms : List (MemberText Settled)) (r : Bytes) :
    Each (fun r p => p.Stands r) (memberChunks owner ms) r := by
  induction ms with
  | nil => trivial
  | cons m ms ih =>
    rw [memberChunks_cons]
    refine ⟨stands_line (List.all_eq_true.1 rfl) _, (each_append _ _ _).2 ⟨?_, ih⟩⟩
    exact stands_words_append isWord_modifierWords _ (stands_form owner m.form _)

theorem Dotted.stands (d : Dotted) {r : Bytes} (hr : Stops r) : Each (fun r p => p.Stands r) d.chunks r := by
  rw [← d.chunks_path]
  exact d.path.stands hr

theorem isWord_declaring : ∀ w ∈ (["using", "namespace", "class"] : List Bytes), IsWord w := isWord_of_all rfl

theorem stands_usings (ds : List Dotted) (r : Bytes) : Each (fun r p => p.Stands r) (usingChunks ds) r := by
  induction ds with
  | nil => trivial
  | cons d ds ih =>
    refine (each_append (Chunk.word "using" :: .gap " " :: (d.chunks ++ [Chunk.mark ";", .gap "\n"]))
      (usingChunks ds) r).2 ⟨⟨⟨isWord_declaring _ (by decide), stops_space _⟩, stands_space _, ?_⟩, ih⟩
    exact (each_append _ _ _).2 ⟨d.stands (stops_semicolon _), stands_mark (by decide) _,
      stands_line (List.all_eq_true.1 rfl) _, trivial⟩

theorem stands_spaces (space : Option Dotted) (r : Bytes) :
    Each (fun r p => p.Stands r) (spaceChunks space) r := by
  cases space with
  | none => trivial
  | some d =>
    refine ⟨⟨isWord_declaring _ (by decide), stops_space _⟩, stands_space _, ?_⟩
    exact (each_append _ _ _).2 ⟨d.stands (stops_newline _), stands_line (List.all_eq_true.1 rfl) _,
      stands_mark (by decide) _, stands_line (List.all_eq_true.1 rfl) _, trivial⟩

theorem stands_bases (bases : Option (TypeText .list)) {r : Bytes} (hr : Stops r) :
    Each (fun r p => p.Stands r) (baseChunks bases) r := by
  cases bases with
  | none => trivial
  | some bs => exact ⟨stands_space _, stands_mark (by decide) _, stands_space _, bs.stands hr⟩

theorem Listing.stands (l : Listing Settled) : Each (fun r p => p.Stands r) l.chunks [] := by
  have htail : Each (fun r p => p.Stands r) l.tailChunks [] := by
    unfold Listing.tailChunks
    refine ⟨stands_line (List.all_eq_true.1 rfl) _, stands_mark (by decide) _,
      stands_line (List.all_eq_true.1 rfl) _, ?_⟩
    split
    · exact ⟨stands_mark (by decide) _, stands_line (List.all_eq_true.1 rfl) _, trivial⟩
    · trivial
  have hbases : ∀ r, Stops r → Stops (render (baseChunks l.bases) ++ r) := by
    intro r hr
    cases l.bases with
    | none => exact hr
    | some bs => exact stops_space _
  rw [l.chunks_eq]
  refine (each_append _ _ _).2 ⟨stands_usings _ _, (each_append _ _ _).2 ⟨stands_spaces _ _, ?_⟩⟩
  refine stands_words_append isWord_modifierWords _ ⟨⟨isWord_declaring _ (by decide), stops_space _⟩,
    stands_space _, ⟨l.name.isWord, ?_⟩, ?_⟩
  · rw [render_append, List.append_assoc]
    exact hbases _ (stops_newline _)
  · exact (each_append _ _ _).2 ⟨stands_bases _ (stops_newline _), stands_line (List.all_eq_true.1 rfl) _,
      stands_mark (by decide) _, (each_append _ _ _).2 ⟨stands_members _ _ _, htail⟩⟩

end

/-- **A source is read back as what it declares**, when its bodies, initializers and defaults end outside
of literals, comments and preprocessor lines. -/
theorem outline_text (l : Listing Settled) : outline l.text = .ok l.outline := outline_of_stands l l.stands

def intType : TypeText .type := .plain (.name (.ofLetters "int" rfl))

def shopName : Name := .ofLetters "Shop" rfl

def rowName : Name := .ofLetters "Row" rfl

def sizeName : Name := .ofLetters "size" rfl

/-- A class with a field, a constructor, a method and a property. -/
def orderListing : Listing Settled where
  usings := [⟨shopName, [rowName]⟩]
  space := some ⟨shopName, []⟩
  modifiers := [⟨"public", by decide⟩, ⟨"sealed", by decide⟩]
  name := .ofLetters "Order" rfl
  bases := some (.more (.plain (.generic (.name rowName) (.one intType))) (.one (.plain (.name rowName))))
  members := [
    { modifiers := [⟨"private", by decide⟩]
      form := .field (.array intType) (.ofLetters "sizes" rfl)
        (some ⟨⟨"\x7b 1, 2 \x7d", by decide +kernel, by decide +kernel⟩, by decide +kernel⟩) },
    { modifiers := [⟨"public", by decide⟩]
      form := .constructor
        [{ modifiers := [], type := intType, name := sizeName,
           default := some ⟨⟨"(1)", by decide +kernel, by decide +kernel⟩, by decide +kernel,
             by decide +kernel, by decide +kernel⟩ }]
        ⟨"\n// the \x7d of a comment\nsizes[0] = size; ", by decide +kernel, by decide +kernel⟩ },
    { modifiers := []
      form := .method (.optional intType) (.ofLetters "At" rfl)
        [{ modifiers := [⟨"in", by decide⟩], type := intType, name := sizeName, default := none },
         { modifiers := [], type := intType, name := rowName, default := none }]
        none },
    { modifiers := [⟨"public", by decide⟩]
      form := .property intType (.ofLetters "Count" rfl)
        [{ modifiers := [], keyword := .ofLetters "get" rfl, body := none },
         { modifiers := [⟨"private", by decide⟩], keyword := .ofLetters "set" rfl,
           body := some ⟨" At(0, value); ", by decide +kernel, by decide +kernel⟩ }] }]

def orderSource : Bytes := "using Shop.Row;
namespace Shop
\x7b
    public sealed class Order : Row<int>, Row
    \x7b
        private int[] sizes = \x7b 1, 2 \x7d;
        public Order(int size = (1)) \x7b
// the \x7d of a comment
sizes[0] = size; \x7d
        int? At(in int size, int Row);
        public int Count \x7b get; private set \x7b At(0, value); \x7d \x7d
    \x7d
\x7d
"

theorem outline_text_order :
    orderListing.text = orderSource ∧ outline orderSource = .ok orderListing.outline := by
  have htext : orderListing.text = orderSource := by
    rw [orderSource, Bytes.ofString_ofList]
    decide +kernel
  exact ⟨htext, (congrArg outline htext).symm.trans (outline_text orderListing)⟩

/-- A class with one method, whose body ends in a preprocessor line. -/
def lineListing : Listing Finished where
  usings := []
  space := none
  modifiers := []
  name := ⟨"A", by decide +kernel, by decide⟩
  bases := none
  members := [{
    modifiers := []
    form := .method (.plain (.name ⟨"T", by decide +kernel, by decide⟩)) ⟨"F", by decide +kernel, by decide⟩ []
      (some ⟨"\n#x", by decide +kernel, by decide +kernel⟩) }]

/-- A preprocessor line goes on to the end of its line, past the brace that should close its block. -/
theorem outline_swallowed_brace : outline lineListing.text ≠ .ok lineListing.outline := by
  have hnone : (outline lineListing.text).toOption.isSome = false := by decide +kernel
  intro h
  rw [h] at hnone
  cases hnone

end Flowsmith.Source
