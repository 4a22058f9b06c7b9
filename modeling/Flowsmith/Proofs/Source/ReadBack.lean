import Flowsmith.Proofs.Source.Listing

/-!
# Reading back the parts of a declaration

A declaration of the grammar has attributes, modifiers, parameters and accessors or a body. The scanner
finds each of them in the tokens that the grammar gives, and reads it back as what was written.

* `attributesSplit_words` : where the attributes end and the modifiers begin;
* `ParamText.unsplit` : the commas inside types and defaults do not separate parameters;
* `paramsOf_place`, `accessorsOf_place`, `bodyOf_place` : parameters, accessors and bodies.
-/

namespace Flowsmith.Source

open Bytes (isLetterByte)

/-! ## Words and code -/

theorem place_gap (pos : Nat) (g : Bytes) (ps : List Chunk) :
    place pos (.gap g :: ps) = place (pos + (Chunk.gap g).text.length) ps := rfl

theorem takeWhile_append_cons {p : Token → Bool} {xs : List Token} {t : Token} (ys : List Token)
    (hx : ∀ x ∈ xs, p x = true) (ht : p t = false) :
    (xs ++ t :: ys).takeWhile p = xs ∧ (xs ++ t :: ys).dropWhile p = t :: ys := by
  rw [List.takeWhile_append_of_pos hx, List.dropWhile_append_of_pos hx,
    List.takeWhile_cons_of_neg (by simp [ht]), List.dropWhile_cons_of_neg (by simp [ht]), List.append_nil]
  exact ⟨rfl, rfl⟩

section

variable {words : List Bytes} (ws : List (WordOf words)) (pos : Nat)

theorem mem_place_words : ∀ t ∈ place pos (wordChunks ws), t.kind = .word ∧ t.text ∈ words := by
  induction ws generalizing pos with
  | nil => intro t ht; cases ht
  | cons w ws ih =>
    intro t ht
    rcases List.mem_cons.1 ht with rfl | ht
    · exact ⟨rfl, w.2⟩
    · exact ih _ t ht

theorem map_text_place_words : (place pos (wordChunks ws)).map (·.text) = ws.map (·.1) := by
  induction ws generalizing pos with
  | nil => rfl
  | cons w ws ih => exact congrArg (w.1 :: ·) (ih _)

theorem isWordOf_place_words : ∀ t ∈ place pos (wordChunks ws), isWordOf words t = true := by
  intro t ht
  obtain ⟨hkind, htext⟩ := mem_place_words ws pos t ht
  rw [isWordOf, Token.isWord, hkind, List.contains_iff_mem.2 htext]
  rfl

theorem isName_place_words (hwords : ∀ w ∈ words, IsWord w) :
    ∀ t ∈ place pos (wordChunks ws), t.isName = true := by
  intro t ht
  obtain ⟨hkind, htext⟩ := mem_place_words ws pos t ht
  have hname := isName_of_isWord (hwords t.text htext)
  rw [Token.isName, Token.isWord, hkind]
  exact hname

theorem stands_words (hwords : ∀ w ∈ words, IsWord w) (r : Bytes) :
    Each (fun r p => p.Stands r) (wordChunks ws) r := by
  induction ws with
  | nil => trivial
  | cons w ws ih =>
    exact ⟨⟨hwords w.1 w.2, stops_cons _ (by decide)⟩, stands_space _, ih⟩

end

theorem isWord_paramWords : ∀ w ∈ paramWords, IsWord w := isWord_of_all rfl

theorem isWord_modifierWords : ∀ w ∈ modifierWords, IsWord w := isWord_of_all rfl

theorem isWord_accessorWords : ∀ w ∈ ("readonly" :: accessWords : List Bytes), IsWord w := isWord_of_all rfl

theorem codeTokens_eq (pos : Nat) (s : Bytes) :
    codeTokens pos s = (codeTokens 0 s).map (Token.shift pos) := by
  have hshift := tokensFrom_shift s 0 pos false
  rw [Nat.zero_add] at hshift
  unfold codeTokens solid
  rw [hshift, List.filter_map]
  rfl

theorem unclosed_shift (k : Nat) (stack : List Bytes) (ts : List Token) :
    unclosed stack (ts.map (Token.shift k)) = unclosed stack ts := by
  induction ts generalizing stack with
  | nil => rfl
  | cons t ts ih =>
    have his : ∀ w, (t.shift k).is w = t.is w := fun _ => rfl
    have hcloser : (t.shift k).closer? = t.closer? := rfl
    have hcloses : closes (t.shift k) = closes t := rfl
    simp only [List.map_cons, unclosed, hcloser, hcloses, his, ih]

theorem Code.nested_tokens {ends : Bytes → Prop} (c : Code ends) (pos : Nat) :
    Nested (codeTokens pos c.text) := by
  rw [codeTokens_eq]
  exact (unclosed_shift pos [] _).trans c.nested

theorem TopFree.shift {w : Bytes} {ts : List Token} (h : TopFree w ts) (k : Nat) :
    TopFree w (ts.map (Token.shift k)) := by
  intro pre t post heq hpre
  obtain ⟨xs, ys, rfl, rfl, hys⟩ := List.map_eq_append_iff.1 heq
  obtain ⟨y, zs, rfl, rfl, -⟩ := List.map_eq_cons_iff.1 hys
  exact h xs y zs rfl ((unclosed_shift k [] xs).symm.trans hpre)

/-! ## Parameters -/

theorem attributesSplit_of_head {ts : List Token} (h : ∀ t, ts.head? = some t → t.is "[" = false) :
    attributesSplit ts = ([], ts) := by
  cases ts with
  | nil => rw [attributesSplit]
  | cons t ts => exact attributesSplit_of_not_open (h t rfl)

theorem head?_append_cons {xs ys : List Token} {t x : Token} (h : (xs ++ t :: ys).head? = some x) :
    x ∈ xs ∨ x = t := by
  cases xs with
  | nil => exact Or.inr (Option.some.inj h).symm
  | cons y xs => exact Or.inl (Option.some.inj h ▸ List.mem_cons_self)

theorem attributesSplit_words {words : List Bytes} (hwords : ("[" : Bytes) ∉ words) (ws : List (WordOf words))
    (pos : Nat) {t : Token} (ht : t.is "[" = false) (ts : List Token) :
    attributesSplit (place pos (wordChunks ws) ++ t :: ts) = ([], place pos (wordChunks ws) ++ t :: ts) := by
  refine attributesSplit_of_head fun x hx => ?_
  rcases head?_append_cons hx with hmem | rfl
  · obtain ⟨-, htext⟩ := mem_place_words ws pos x hmem
    exact not_is_of_text_ne fun h => hwords (h ▸ htext)
  · exact ht

theorem place_value (pos : Nat) (s : Bytes) :
    place pos (valueChunks (some s)) = ⟨.mark, "=", pos + 1⟩ :: codeTokens (pos + 3) s := by
  change _ ++ [] = _
  rw [List.append_nil]
  rfl

theorem Spans.shift {pos n : Nat} {ts : List Token} (h : Spans pos n ts) (k : Nat) :
    Spans (pos + k) n (ts.map (Token.shift k)) := by
  obtain ⟨a, b, ha, hstart, hb, hstop⟩ := h
  refine ⟨a.shift k, b.shift k, ?_, ?_, ?_, ?_⟩
  · rw [List.head?_map, ha]
    rfl
  · rw [Token.shift, hstart]
  · rw [List.getLast?_map, hb]
    rfl
  · simp only [Token.stop, Token.shift] at hstop ⊢
    omega

theorem Default.raw_tokens {ends : Bytes → Prop} (d : Default ends) {src : Bytes} {pos : Nat}
    (h : At src pos d.text) : raw src.slice (codeTokens pos d.text) = d.text := by
  refine raw_of_spans h ?_
  have hspans := Spans.shift d.spans pos
  rw [Nat.zero_add] at hspans
  rw [codeTokens_eq]
  exact hspans

theorem TypeText.place_head {g : Grade} (t : TypeText g) (pos : Nat) :
    ∃ (w : Name) (tail : List Token), place pos t.chunks = w.token pos :: tail := by
  obtain ⟨w, ps, hps⟩ := t.chunks_head
  exact ⟨w, _, by rw [hps]; rfl⟩

theorem paramOf_tokens (cut : Nat → Nat → Bytes) {mods tail value : List Token} {w name : Token}
    (hmods : ∀ t ∈ mods, isWordOf paramWords t = true)
    (hattr : attributesSplit (mods ++ (w :: tail ++ name :: value))
      = ([], mods ++ (w :: tail ++ name :: value)))
    (hw : isWordOf paramWords w = false) (htype : ∀ t ∈ w :: tail, t.is "=" = false)
    (hname : name.is "=" = false) (hvalue : ∀ t, value.head? = some t → t.is "=" = true) :
    paramOf cut (mods ++ (w :: tail ++ name :: value))
      = { modifiers := mods.map (·.text), type := flat cut (w :: tail), name := name.text,
          default := raw cut value.tail } := by
  have hwords := takeWhile_append_cons (tail ++ name :: value) hmods hw
  have hdeclared : (w :: tail ++ name :: value).takeWhile (!·.is "=") = w :: tail ++ [name] ∧
      (w :: tail ++ name :: value).dropWhile (!·.is "=") = value := by
    have hall : ∀ t ∈ w :: tail ++ [name], (!t.is "=") = true := by
      intro t ht
      rcases List.mem_append.1 ht with ht | ht
      · rw [htype t ht]
        rfl
      · rw [List.mem_singleton.1 ht, hname]
        rfl
    cases value with
    | nil => exact ⟨List.takeWhile_eq_self_iff.2 hall, List.dropWhile_eq_nil_iff.2 hall⟩
    | cons e value =>
      have := takeWhile_append_cons value hall (by rw [hvalue e rfl]; rfl)
      rwa [List.append_assoc, List.singleton_append] at this
  unfold paramOf
  simp only [hattr]
  rw [← List.cons_append] at hwords
  simp only [hwords.1, hwords.2, hdeclared.1, hdeclared.2, List.getLast?_concat, List.dropLast_concat]

theorem Name.not_isWordOf {words : List Bytes} (hwords : ∀ w ∈ words, w ∈ keptWords) (w : Name) (pos : Nat) :
    isWordOf words (w.token pos) = false :=
  not_isWordOf_of_not_mem fun h : w.text ∈ words => w.free (hwords _ h)

theorem modifierWords_kept : ∀ v ∈ modifierWords, v ∈ keptWords := fun v hv => by
  simp [keptWords, reservedWords, hv]

theorem typeWords_kept : ∀ v ∈ typeWords, v ∈ keptWords := fun v hv => by
  simp [keptWords, reservedWords, hv]

theorem paramOf_place {ends : Bytes → Prop} (p : ParamText ends) {src : Bytes} {pos : Nat}
    (h : At src pos (render p.chunks)) : paramOf src.slice (place pos p.chunks) = p.param := by
  unfold ParamText.chunks at h ⊢
  simp only [render_append, render_cons] at h
  rw [place_append, place_append]
  have hflat := p.type.flat_place h.right.left
  have hvalue := h.right.right.right.right
  obtain ⟨w, tail, hhead⟩ := p.type.place_head (pos + (render (wordChunks p.modifiers)).length)
  have hnot := p.type.not_is_place (pos + (render (wordChunks p.modifiers)).length)
  rw [hhead] at hnot hflat ⊢
  refine Eq.trans (paramOf_tokens src.slice (isWordOf_place_words p.modifiers pos)
    (attributesSplit_words (by decide) p.modifiers pos (w.token_not_is _ (Or.inl (by decide))) _)
    (w.not_isWordOf (by decide) _) (fun t ht => hnot t ht _ (by decide))
    (p.name.token_not_is _ (Or.inl (by decide))) ?_) ?_
  · intro t ht
    cases hd : p.default with
    | none =>
      rw [hd] at ht
      cases ht
    | some d =>
      rw [hd, Option.map_some, place_value] at ht
      cases ht
      rfl
  · rw [map_text_place_words, hflat, ParamText.param]
    congr 1
    cases hd : p.default with
    | none => rfl
    | some d =>
      rw [hd] at hvalue
      have hvalue : At src _ ((" " : Bytes) ++ ((("= " : Bytes) ++ d.text) ++ [])) := hvalue
      rw [Option.map_some, place_value]
      exact d.raw_tokens hvalue.right.left.right

theorem paramDelta_bracket {o c : Bytes} (hp : (o, c) ∈ bracketPairs) {t u : Token} (ht : t.is o = true)
    (hu : u.is c = true) : paramDelta t = 1 ∧ paramDelta u = -1 ∧ t.is "," = false ∧ u.is "," = false := by
  simp only [bracketPairs, List.mem_cons, List.not_mem_nil, or_false, Prod.mk.injEq] at hp
  rcases hp with ⟨rfl, rfl⟩ | ⟨rfl, rfl⟩ | ⟨rfl, rfl⟩
  all_goals
    refine ⟨?_, ?_, Token.not_is ht (by decide), Token.not_is hu (by decide)⟩
    · simp [paramDelta, ht]
    · have hnot : ∀ v ∈ (["(", "[", Bytes.leftBrace, "<"] : List Bytes), u.is v = false := fun v hv =>
        Token.not_is hu (by revert v; decide)
      simp [paramDelta, hu, hnot]

theorem paramDelta_plain {t : Token} (hn : t.closer? = none) (hc : closes t = false)
    (hangle : t.is "<" = false ∧ t.is ">" = false) : paramDelta t = 0 := by
  have hopens : opens t = false := by rw [opens_eq, hn]; rfl
  simp only [opens, closes, Bool.or_eq_false_iff] at hopens hc
  simp [paramDelta, hopens, hc, hangle]

/-- In nested code without angle brackets no comma separates but one outside of all brackets. -/
theorem unsplit_nested {ts : List Token} (h : Nested ts)
    (hplain : ∀ t ∈ ts, t.is "<" = false ∧ t.is ">" = false) {d : Int}
    (hd : 0 < d ∨ d = 0 ∧ TopFree "," ts) : Unsplit d ts := by
  revert hplain d
  refine nested_induction (P := fun ts => (∀ t ∈ ts, t.is "<" = false ∧ t.is ">" = false) → ∀ {d : Int},
    0 < d ∨ d = 0 ∧ TopFree "," ts → Unsplit d ts) ?_ ?_ ?_ h
  · intro _ d _
    exact unsplit_nil d
  · intro t ts hn hc _ ih hplain d hd
    have hdelta := paramDelta_plain hn hc (hplain t List.mem_cons_self)
    have hrest : 0 < d ∨ d = 0 ∧ TopFree "," ts := hd.imp id fun hd => ⟨hd.1, (hd.2.tail hn hc).2⟩
    have htoken : Unsplit d [t] := unsplit_token hdelta <| hd.imp (by omega) fun hd => (hd.2.tail hn hc).1
    exact htoken.append (ih (fun x hx => hplain x (List.mem_cons_of_mem _ hx)) hrest)
  · intro o c t u xs ys hp ht hu hxs hys ihx ihy hplain d hd
    obtain ⟨hopen, hclose, hcomma⟩ := paramDelta_bracket hp ht hu
    have hrest : 0 < d ∨ d = 0 ∧ TopFree "," ys := hd.imp id fun hd => ⟨hd.1, hd.2.after hp ht hu hxs⟩
    have hinner : Unsplit (d + 1) xs := ihx (fun x hx => hplain x (by simp [hx])) (Or.inl (by omega))
    have hpair := (hinner.pair hopen hclose hcomma).append (ihy (fun x hx => hplain x (by simp [hx])) hrest)
    rwa [List.append_assoc, List.singleton_append] at hpair

theorem Default.unsplit {ends : Bytes → Prop} (d : Default ends) (pos : Nat) :
    Unsplit 0 (codeTokens pos d.text) := by
  refine unsplit_nested (d.nested_tokens pos) ?_ (Or.inr ⟨rfl, ?_⟩)
  · rw [codeTokens_eq]
    intro t ht
    obtain ⟨t₀, ht₀, rfl⟩ := List.mem_map.1 ht
    exact d.plain t₀ ht₀
  · rw [codeTokens_eq]
    exact d.whole.shift pos

theorem unsplit_name {t : Token} (h : t.isName = true) (d : Int) : Unsplit d [t] := by
  obtain ⟨hn, hc⟩ := plain_of_isName h
  exact unsplit_token (paramDelta_plain hn hc ⟨isName_not_is h (by decide), isName_not_is h (by decide)⟩)
    (Or.inr (isName_not_is h (by decide)))

theorem unsplit_names {ts : List Token} (h : ∀ t ∈ ts, t.isName = true) (d : Int) : Unsplit d ts := by
  induction ts with
  | nil => exact unsplit_nil d
  | cons t ts ih =>
    have htoken := unsplit_name (h t List.mem_cons_self) d
    exact htoken.append (ih fun x hx => h x (List.mem_cons_of_mem _ hx))

theorem ParamText.unsplit {ends : Bytes → Prop} (p : ParamText ends) (pos : Nat) :
    Unsplit 0 (place pos p.chunks) := by
  unfold ParamText.chunks
  rw [place_append, place_append]
  have hmods := unsplit_names (isName_place_words p.modifiers pos isWord_paramWords) 0
  have htype := p.type.unsplit_place (pos + (render (wordChunks p.modifiers)).length) (d := 0) (by omega)
    (by simp)
  refine hmods.append (htype.append ((unsplit_name (p.name.isName_token _) 0).append ?_))
  cases p.default with
  | none => exact unsplit_nil 0
  | some d =>
    rw [Option.map_some, place_value]
    exact (unsplit_token (t := ⟨.mark, "=", _⟩) rfl (Or.inr rfl)).append (d.unsplit _)

theorem ParamText.place_ne_nil {ends : Bytes → Prop} (p : ParamText ends) (pos : Nat) :
    (place pos p.chunks).isEmpty = false := by
  unfold ParamText.chunks
  rw [place_append, place_append, place_cons, place_cons]
  simp [Chunk.tokens]

theorem paramsOf_cons (cut : Nat → Nat → Bytes) {xs : List Token} (hx : Unsplit 0 xs)
    (hne : xs.isEmpty = false) :
    paramsOf cut xs = [paramOf cut xs] ∧
      ∀ {t : Token}, t.is "," = true → ∀ ys, paramsOf cut (xs ++ t :: ys) = paramOf cut xs :: paramsOf cut ys := by
  unfold paramsOf
  refine ⟨?_, fun ht ys => ?_⟩
  · have hgroups := hx []
    rw [List.append_nil] at hgroups
    simp [hgroups, commaGroups, prepend, hne]
  · rw [hx, commaGroups_cons, if_pos ⟨rfl, ht⟩]
    simp [prepend, hne]

/-- **Parameters are read back.** -/
theorem paramsOf_place {ends : Bytes → Prop} (ps : List (ParamText ends)) {src : Bytes} {pos : Nat}
    (h : At src pos (render (paramChunks ps))) :
    paramsOf src.slice (place pos (paramChunks ps)) = ps.map (·.param) := by
  induction ps generalizing pos with
  | nil => rfl
  | cons p ps ih =>
    obtain ⟨hlast, hmore⟩ := paramsOf_cons src.slice (p.unsplit pos) (p.place_ne_nil pos)
    cases ps with
    | nil => exact hlast.trans (congrArg (fun q => [q]) (paramOf_place p h))
    | cons q ps =>
      rw [paramChunks] at h ⊢
      simp only [render_append, render_cons] at h
      rw [place_append, place_cons, place_cons]
      refine (hmore (t := ⟨.mark, ",", _⟩) rfl _).trans ?_
      rw [paramOf_place p h.left, List.map_cons]
      exact congrArg _ (ih h.right.right.right)

theorem nested_names {ts : List Token} (h : ∀ t ∈ ts, t.isName = true) : Nested ts :=
  nested_of_plain fun t ht => plain_of_isName (h t ht)

theorem ParamText.nested_place {ends : Bytes → Prop} (p : ParamText ends) (pos : Nat) :
    Nested (place pos p.chunks) := by
  unfold ParamText.chunks
  rw [place_append, place_append]
  have hmods := nested_names (isName_place_words p.modifiers pos isWord_paramWords)
  refine hmods.append ((p.type.nested_place _).append ?_)
  obtain ⟨hopen, hclose⟩ := plain_of_isName (p.name.isName_token _)
  refine Nested.cons hopen hclose ?_
  cases p.default with
  | none => exact nested_nil
  | some d =>
    rw [Option.map_some, place_value]
    exact Nested.cons rfl rfl (d.nested_tokens _)

theorem nested_params {ends : Bytes → Prop} (ps : List (ParamText ends)) (pos : Nat) :
    Nested (place pos (paramChunks ps)) := by
  induction ps generalizing pos with
  | nil => exact nested_nil
  | cons p ps ih =>
    cases ps with
    | nil => exact p.nested_place pos
    | cons q ps =>
      rw [paramChunks, place_append, place_cons, place_cons]
      exact (p.nested_place pos).append (Nested.cons rfl rfl (ih _))

/-! ## Bodies -/

theorem inside?_concat (cut : Nat → Nat → Bytes) (a : Token) (xs : List Token) (b : Token) :
    inside? cut (a :: xs ++ [b]) = some (cut a.stop b.start) := by
  cases xs with
  | nil => rfl
  | cons x xs =>
    have hlast : ∀ h, (x :: (xs ++ [b])).getLast h = b := fun h => List.getLast_concat (l := x :: xs)
    simp [inside?, hlast]

section

variable {ends : Bytes → Prop} (c : Code ends)

theorem nested_block (pos : Nat) : Nested ((Chunk.block c.text).tokens pos) :=
  Nested.pair mem_braces rfl rfl (c.nested_tokens (pos + 1)) nested_nil

theorem splitPair_block (pos : Nat) (ys : List Token) :
    splitPair Bytes.leftBrace Bytes.rightBrace ((Chunk.block c.text).tokens pos ++ ys)
      = ((Chunk.block c.text).tokens pos, ys) := by
  rw [Chunk.tokens, List.append_assoc]
  exact splitPair_nested mem_braces rfl (c.nested_tokens (pos + 1)) rfl ys

theorem blockText_block {src : Bytes} {pos : Nat} (h : At src pos (Chunk.block c.text).text) :
    blockText src.slice ((Chunk.block c.text).tokens pos) = .ok c.text := by
  have hslice := h.right.left.slice
  unfold blockText
  rw [Chunk.tokens, inside?_concat]
  exact congrArg Except.ok hslice

end

theorem place_body {ends : Bytes → Prop} (pos : Nat) (c : Code ends) :
    place pos (bodyChunks (some c)) = (Chunk.block c.text).tokens (pos + 1) := List.append_nil _

/-- **A body is read back.** -/
theorem bodyOf_place {ends : Bytes → Prop} (body : Option (Code ends)) {src : Bytes} {pos : Nat}
    (h : At src pos (render (bodyChunks body))) :
    bodyOf src.slice (place pos (bodyChunks body)) = .ok (Code.body body) := by
  cases body with
  | none => rfl
  | some c =>
    have hblock : At src (pos + 1) ((Chunk.block c.text).text ++ []) := h.right
    rw [List.append_nil] at hblock
    have hpair := splitPair_block c (pos + 1) []
    have htext := blockText_block c hblock
    rw [List.append_nil] at hpair
    rw [place_body]
    rw [Chunk.tokens, List.cons_append] at hpair htext ⊢
    rw [bodyOf, if_pos (by rfl), hpair, htext]
    rfl

/-! ## Accessors -/

theorem accessorsOf_tokens (cut : Nat → Nat → Bytes) {mods after : List Token} {keyword next : Token}
    (hmods : ∀ t ∈ mods, isAccessorModifier t = true)
    (hattr : attributesSplit (mods ++ keyword :: next :: after) = ([], mods ++ keyword :: next :: after))
    (hkeyword : isAccessorModifier keyword = false) :
    (next.is ";" = true → accessorsOf cut (mods ++ keyword :: next :: after)
      = (accessorsOf cut after).map
        ({ keyword := keyword.text, modifiers := mods.map (·.text), auto := true } :: ·)) ∧
    (next.is Bytes.leftBrace = true → ∀ block ys body,
      splitPair Bytes.leftBrace Bytes.rightBrace (next :: after) = (block, ys) →
      blockText cut block = .ok body → accessorsOf cut (mods ++ keyword :: next :: after)
        = (accessorsOf cut ys).map
          ({ keyword := keyword.text, modifiers := mods.map (·.text), body := body } :: ·)) := by
  obtain ⟨htake, hdrop⟩ := takeWhile_append_cons (next :: after) hmods hkeyword
  rw [accessorsOf_eq]
  simp only [hattr, htake, hdrop]
  refine ⟨fun hnext => if_pos hnext, fun hnext block ys body hpair hbody => ?_⟩
  rw [if_neg (by simp [Token.not_is hnext (show Bytes.leftBrace ≠ (";" : Bytes) by decide)]), if_pos hnext,
    hpair]
  simp only [hbody]
  rfl

theorem accessorsOf_append {ends : Bytes → Prop} (a : AccessorText ends) {src : Bytes} {pos : Nat}
    (h : At src pos (render a.chunks)) (ys : List Token) :
    accessorsOf src.slice (place pos a.chunks ++ ys)
      = (accessorsOf src.slice ys).map (a.accessor :: ·) := by
  unfold AccessorText.chunks at h ⊢
  rw [render_append] at h
  rw [place_append, place_cons, List.append_assoc, AccessorText.accessor, ← map_text_place_words _ pos]
  have htokens : ∀ next after, _ := fun next after => accessorsOf_tokens src.slice
    (isWordOf_place_words a.modifiers pos)
    (attributesSplit_words (by decide) a.modifiers pos (a.keyword.token_not_is _ (Or.inl (by decide)))
      (next :: after))
    (a.keyword.not_isWordOf (by decide) (pos + (render (wordChunks a.modifiers)).length))
  cases hbody : a.body with
  | none => exact (htokens _ ys).1 rfl
  | some c =>
    rw [hbody] at h
    have hblock : At src _ ((Chunk.block c.text).text ++ []) := h.right.right.right
    rw [List.append_nil] at hblock
    rw [place_body]
    exact (htokens _ _).2 rfl _ ys _ (splitPair_block c _ ys) (blockText_block c hblock)

/-- **Accessors are read back.** -/
theorem accessorsOf_place {ends : Bytes → Prop} (as : List (AccessorText ends)) {src : Bytes} {pos : Nat}
    (h : At src pos (render (accessorChunks as))) :
    accessorsOf src.slice (place pos (accessorChunks as)) = .ok (as.map (·.accessor)) := by
  induction as generalizing pos with
  | nil =>
    change accessorsOf src.slice [] = .ok []
    rw [accessorsOf_eq, attributesSplit]
    rfl
  | cons a as ih =>
    have hchunks : accessorChunks (a :: as) = .gap " " :: (a.chunks ++ accessorChunks as) := rfl
    rw [hchunks] at h ⊢
    rw [render_cons, render_append] at h
    rw [place_gap, place_append]
    refine (accessorsOf_append a h.right.left _).trans ?_
    rw [ih h.right.right]
    rfl

theorem nested_accessors {ends : Bytes → Prop} (as : List (AccessorText ends)) (pos : Nat) :
    Nested (place pos (accessorChunks as)) := by
  induction as generalizing pos with
  | nil => exact nested_nil
  | cons a as ih =>
    have hchunks : accessorChunks (a :: as) = .gap " " :: (a.chunks ++ accessorChunks as) := rfl
    rw [hchunks, place_gap, place_append]
    refine Nested.append ?_ (ih _)
    unfold AccessorText.chunks
    rw [place_append]
    refine (nested_names (isName_place_words a.modifiers _ isWord_accessorWords)).append ?_
    obtain ⟨hopen, hclose⟩ := plain_of_isName (a.keyword.isName_token _)
    refine Nested.cons hopen hclose ?_
    cases a.body with
    | none => rfl
    | some c =>
      rw [place_body]
      exact nested_block c _

end Flowsmith.Source
