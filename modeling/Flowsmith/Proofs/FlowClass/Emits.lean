import Flowsmith.Proofs.FlowClass.Layout
import Flowsmith.Proofs.Source.Statements

/-!
# Members as they are written

Each member of a flow class is written on lines of its own, and these lines are read as that member.

* `Emits T P` : whatever follows the lines `T`, their tokens have the property `P`;
* `emits_configure`, `emits_method`, `emits_property`, `emits_callback` : what the members of a flow
  class are read as.
-/

namespace Flowsmith.FlowClass

open Source (Token Reads Lines Turns Thin Nested IsMember IsDotted IsWord SelfContained Stops solid tokensFrom
  textEnds)

/-- Whatever follows the lines `T`, the tokens of their code have the property `P`. -/
def Emits (T : Bytes) (P : List Token → Prop) : Prop :=
  ∀ pos r, ∃ ts, tokensFrom pos true (T ++ r) = ts ++ tokensFrom (pos + T.length) true r ∧ P (solid ts)

theorem Emits.mono {T : Bytes} {P Q : List Token → Prop} (h : Emits T P)
    (hPQ : ∀ ts, (∀ t ∈ ts, t.isWord = true → t.isName = true) → P ts → Q ts) : Emits T Q := by
  intro pos r
  obtain ⟨ts, heq, hP⟩ := h pos r
  refine ⟨ts, heq, hPQ _ (fun t ht hw => ?_) hP⟩
  have hmem : t ∈ tokensFrom pos true (T ++ r) := by
    rw [heq]
    exact List.mem_append_left _ (Source.mem_solid.1 ht).1
  exact Source.isName_of_mem hmem hw

theorem Emits.append {S T : Bytes} {P Q R : List Token → Prop} (hS : Emits S P) (hT : Emits T Q)
    (hR : ∀ a b, P a → Q b → R (a ++ b)) : Emits (S ++ T) R := by
  intro pos r
  obtain ⟨a, ha, hP⟩ := hS pos (T ++ r)
  obtain ⟨b, hb, hQ⟩ := hT (pos + S.length) r
  refine ⟨a ++ b, ?_, ?_⟩
  · rw [List.append_assoc, ha, hb, List.length_append, List.append_assoc, Nat.add_assoc]
  · rw [Source.solid_append]
    exact hR _ _ hP hQ

theorem emits_nil : Emits [] (· = []) := fun _ _ => ⟨[], rfl, rfl⟩

theorem emits_newline : Emits [Bytes.newline] (· = []) := fun pos r =>
  ⟨[], Source.tokensFrom_newline pos true r, rfl⟩

theorem Emits.blankLine {T : Bytes} {P : List Token → Prop} (h : Emits T P) :
    Emits ([Bytes.newline] ++ T) P :=
  emits_newline.append h fun a b ha hb => by rwa [ha]

theorem emits_lines {T : Bytes} {ts : List Token} (h : Lines T ts) : Emits T (Thin (solid ts)) := by
  intro pos r
  obtain ⟨ts', heq, hthin⟩ := h r pos
  exact ⟨ts', heq, hthin.filter⟩

theorem isGapText_pad (level : Nat) : Source.IsGapText (pad level) := isGapText_spaces _

theorem emits_line {s : Bytes} {ts : List Token} (level : Nat)
    (h : ∀ r, ∃ f, Reads true s ts (Bytes.newline :: r) f) : Emits (lineAt level s) (Thin (solid ts)) := by
  refine emits_lines fun r => ?_
  obtain ⟨f, hs⟩ := h r
  have hgap := Source.reads_gap (isGapText_pad level) true (s ++ ([Bytes.newline] ++ r))
  have hline := (hgap.append hs).append (Source.reads_newline f r)
  rwa [List.nil_append, List.append_nil] at hline

theorem emits_code {s : Bytes} (level : Nat) (h : ∀ r, Turns [] [] s (Bytes.newline :: r)) :
    Emits (lineAt level s) Nested := by
  intro pos r
  obtain ⟨ts, f, hs, hsolid, hnest⟩ := h r true
  have hgap := Source.reads_gap (isGapText_pad level) true (s ++ ([Bytes.newline] ++ r))
  have hline := (hgap.append hs).append (Source.reads_newline f r)
  rw [List.nil_append, List.append_nil] at hline
  obtain ⟨ts', heq, hthin⟩ := hline pos
  refine ⟨ts', heq, ?_⟩
  have hfilter := hthin.filter
  rw [show ts.filter (!·.isTrivia) = ts from Source.solid_eq_self hsolid] at hfilter
  exact hfilter.nested hnest

/-- The texts that every generated file is written with, and the tokens of each. -/
def fixedTexts : List (Bytes × List Token) :=
  [(Bytes.leftBrace, [.ofMark Bytes.leftBrace]),
   (Bytes.rightBrace, [.ofMark Bytes.rightBrace]),
   ("return ", [.ofWord "return"]),
   (".Result;", [.ofMark ".", .ofWord "Result", .ofMark ";"]),
   (" = new ", [.ofMark "=", .ofWord "new"]),
   ("();", [.ofMark "(", .ofMark ")", .ofMark ";"]),
   (" \x7b get; set; \x7d", Token.ofMark Bytes.leftBrace :: Source.autoTokens ++ [Token.ofMark Bytes.rightBrace]),
   ("()]", [.ofMark "(", .ofMark ")", .ofMark "]"]),
   (")]", [.ofMark ")", .ofMark "]"]),
   (", LegacyMode=true)]", [.ofMark ",", .ofWord "LegacyMode", .ofMark "=", .ofWord "true", .ofMark ")",
     .ofMark "]"])]

theorem fixed_text {s : Bytes} {ts : List Token} (h : (s, ts) ∈ fixedTexts) (f : Bool) :
    Source.fixed? f s = some (ts.map Token.spelling) := by
  have hall : ∀ e ∈ fixedTexts, ∀ f, Source.fixed? f e.1 = some (e.2.map Token.spelling) := by decide +kernel
  exact hall _ h f

theorem emits_fixed {s : Bytes} {ts : List Token} (level : Nat) (h : (s, ts) ∈ fixedTexts) :
    Emits (lineAt level s) (Thin (solid ts)) :=
  emits_line level fun _ => Source.reads_fixed (fixed_text h true) _

theorem emits_braced {inner : Bytes} {P : List Token → Prop} (level : Nat) (h : Emits inner P) :
    Emits (braced level inner) fun ts => ∃ brace xs close, ts = brace :: (xs ++ [close]) ∧
      Source.Alike (.ofMark Bytes.leftBrace) brace ∧ Source.Alike (.ofMark Bytes.rightBrace) close ∧ P xs := by
  have hopen : Emits (lineAt level Bytes.leftBrace) (Thin [.ofMark Bytes.leftBrace]) :=
    @emits_fixed Bytes.leftBrace [.ofMark Bytes.leftBrace] level (by simp [fixedTexts])
  have hclose : Emits (lineAt level Bytes.rightBrace) (Thin [.ofMark Bytes.rightBrace]) :=
    @emits_fixed Bytes.rightBrace [.ofMark Bytes.rightBrace] level (by simp [fixedTexts])
  have hone : ∀ {m : Bytes} {ts : List Token}, (Token.ofMark m).isJunk = false → Thin [.ofMark m] ts →
      ∃ t, ts = [t] ∧ Source.Alike (.ofMark m) t := fun hjunk hthin => by
    obtain ⟨t, ts, rfl, ht, hnil⟩ := hthin.uncons hjunk
    exact ⟨t, by rw [hnil.nil_left], ht⟩
  have hlead : Emits (lineAt level Bytes.leftBrace ++ inner) fun ts => ∃ brace xs, ts = brace :: xs ∧
      Source.Alike (.ofMark Bytes.leftBrace) brace ∧ P xs := by
    refine hopen.append h fun a xs ha hx => ?_
    obtain ⟨brace, rfl, hbrace⟩ := hone (by decide) ha
    exact ⟨brace, xs, rfl, hbrace, hx⟩
  refine hlead.append hclose ?_
  rintro _ b ⟨brace, xs, rfl, hbrace, hx⟩ hb
  obtain ⟨close, rfl, hclose⟩ := hone (by decide) hb
  exact ⟨brace, xs, close, rfl, hbrace, hclose, hx⟩

/-! ## Methods that are written -/

abbrev space : Bytes := [0x20]

theorem stops_space (r : Bytes) : Stops (space ++ r) := Source.stops_cons r (by decide)

theorem reads_space (f : Bool) (r : Bytes) : Reads f space [] r f :=
  Source.reads_gap (by simp [Source.IsGapText, Source.isGap]) f r

theorem reads_words {ws : List Bytes} (hne : ws ≠ []) (h : ∀ w ∈ ws, IsWord w) (f : Bool) {r : Bytes}
    (hr : Stops r) : Reads f (Bytes.joinWith space ws) (ws.map .ofWord) r false := by
  induction ws generalizing f with
  | nil => exact absurd rfl hne
  | cons w ws ih =>
    have hw := h w List.mem_cons_self
    by_cases hnil : ws = []
    · subst hnil
      exact Source.reads_word hw f hr
    · rw [joinWith_cons hnil, List.map_cons]
      have hword := Source.reads_word hw f (stops_space (Bytes.joinWith space ws ++ r))
      have hrest := ih hnil (fun x hx => h x (List.mem_cons_of_mem _ hx)) false
      exact (hword.append (reads_space false _)).append hrest

/-- The words that every generated file is written with. -/
def fixedWords : List Bytes :=
  Source.modifierWords ++ (["namespace", "using", "class", "bool", "Configure", "Name"] : List Bytes)

theorem isWord_fixed : ∀ w ∈ fixedWords, IsWord w := Source.isWord_of_all rfl

theorem isWord_of_modifier {w : Bytes} (h : w ∈ Source.modifierWords) : IsWord w :=
  isWord_fixed w (List.mem_append_left _ h)

theorem isModifier_ofWord {w : Bytes} (h : w ∈ Source.modifierWords) :
    Source.isModifier (.ofWord w) = true := by
  rw [Source.isModifier, Source.isWordOf, show (Token.ofWord w).text = w from rfl,
    List.contains_iff_mem.2 h]
  rfl

def methodLine (ws : List Bytes) (type name params : Bytes) : Bytes :=
  Bytes.joinWith space ws ++ space ++ type ++ space ++ name ++ ("(" : Bytes) ++ params ++ (")" : Bytes)

/-- **A method that is written is read as a method.** -/
theorem emits_declared {ws : List Bytes} {type name params inner : Bytes} {ps : List Token} (level : Nat)
    (hne : ws ≠ []) (hws : ∀ w ∈ ws, w ∈ Source.modifierWords) (htype : Source.IsDottedName type)
    (hname : IsWord name) (hnamed : name ≠ "this" ∧ name ≠ "operator")
    (hparams : ∀ r, Reads false params ps ((")" : Bytes) ++ r) false)
    (hsolid : ∀ t ∈ ps, t.isTrivia = false) (hps : Nested ps) (hinner : Emits inner Nested) :
    Emits (lineAt level (methodLine ws type name params) ++ braced level inner)
      (IsMember name .method False) := by
  have hline : ∀ r, Reads true (methodLine ws type name params)
      ((ws.map Token.ofWord ++ [] ++ Source.dottedTokens 0 (Source.dottedParts type) ++ [] ++ [Token.ofWord name])
        ++ [Token.ofMark "("] ++ ps ++ [Token.ofMark ")"]) (Bytes.newline :: r) false := by
    intro r
    have hmods := reads_words hne (fun w hw => isWord_of_modifier (hws w hw)) true (stops_space
      (type ++ (space ++ (name ++ (("(" : Bytes) ++ (params ++ ((")" : Bytes) ++ Bytes.newline :: r)))))))
    have htypes := Source.reads_dotted htype.1 false (stops_space
      (name ++ (("(" : Bytes) ++ (params ++ ((")" : Bytes) ++ Bytes.newline :: r)))))
    have hword := Source.reads_word hname false (Source.stops_cons (x := '('.toUInt8)
      (params ++ ((")" : Bytes) ++ Bytes.newline :: r)) (by decide))
    have hopen : Reads false ("(" : Bytes) [Token.ofMark "("] (params ++ ((")" : Bytes) ++ Bytes.newline :: r))
        false := Source.reads_mark false _ (by decide) (by decide)
    have hclose : Reads false (")" : Bytes) [.ofMark ")"] (Bytes.newline :: r) false :=
      Source.reads_mark false _ (by decide) (by decide)
    exact ((((((hmods.append (reads_space false _)).append htypes).append (reads_space false _)).append
      hword).append hopen).append (hparams _)).append hclose
  have hhead : Emits (lineAt level (methodLine ws type name params))
      (Thin ((ws.map Token.ofWord ++ [] ++ Source.dottedTokens 0 (Source.dottedParts type) ++ [] ++
        [Token.ofWord name])
        ++ [Token.ofMark "("] ++ ps ++ [Token.ofMark ")"])) := by
    have hemits := emits_line level fun r => ⟨false, hline r⟩
    rwa [Source.solid_eq_self] at hemits
    intro t ht
    simp only [List.mem_append, List.mem_map, List.mem_singleton, List.not_mem_nil, or_false] at ht
    rcases ht with ((((⟨w, -, rfl⟩ | ht) | rfl) | rfl) | ht) | rfl
    · rfl
    · exact Source.not_isTrivia_dotted ht
    · rfl
    · rfl
    · exact hsolid t ht
    · rfl
  have hmember : Emits (lineAt level (methodLine ws type name params) ++ braced level inner) fun ts =>
      ∃ xs, Nested xs ∧
        Thin (Source.methodTokens (ws.map .ofWord) (Source.dottedParts type) name ps xs) ts := by
    refine hhead.append (emits_braced level hinner) ?_
    rintro a _ ha ⟨brace, xs, close, rfl, hbrace, hclose, hxs⟩
    refine ⟨xs, hxs, ?_⟩
    have hthin := ha.append (.keep hbrace ((Source.thin_refl xs).append (.keep hclose .nil)))
    simpa [Source.methodTokens] using hthin
  refine hmember.mono ?_
  rintro ts hsound ⟨xs, hxs, hthin⟩
  refine Source.isMember_method (fun t ht => ?_) (Bytes.splitOn_ne_nil _ _) htype.1 (fun part hpart => ?_)
    hname hnamed hps hxs hthin hsound
  · obtain ⟨w, hw, rfl⟩ := List.mem_map.1 ht
    exact isModifier_ofWord (hws w hw)
  · exact htype.2 part (List.mem_of_head? hpart)

theorem emits_configure {expression runner receiver : Bytes} (level : Nat)
    (hrunner : Source.IsDottedName runner) (hreceiver : IsDotted receiver)
    (hexpression : ∀ r, Stops r → Turns [] [] expression r) :
    Emits ((configureMethod expression runner receiver).render level) (IsMember "Configure" .method False) := by
  have hparams : ∀ r, Reads false (runner ++ space ++ receiver)
      (Source.dottedTokens 0 (Source.dottedParts runner) ++ ([] : List Token) ++
        Source.dottedTokens 0 (Source.dottedParts receiver)) ((")" : Bytes) ++ r) false := by
    intro r
    have htype := Source.reads_dotted hrunner.1 false (stops_space (receiver ++ ((")" : Bytes) ++ r)))
    have hname := Source.reads_dotted hreceiver false
      (Source.stops_cons (x := ')'.toUInt8) r (by decide))
    exact (htype.append (reads_space false _)).append hname
  have hinner : Emits (lineAt (level + 1) (("return " : Bytes) ++ expression ++ (";" : Bytes))) Nested := by
    refine emits_code _ fun r => ?_
    have hreturn : Turns [] [] ("return " : Bytes) (expression ++ ((";" : Bytes) ++ Bytes.newline :: r)) :=
      Source.turns_fixed [.ofWord "return"] (fixed_text (by simp [fixedTexts])) (by decide) (by decide) _
    have hend : Turns [] [] (";" : Bytes) (Bytes.newline :: r) :=
      Source.turns_mark _ (by decide) (by decide) (by decide)
    exact (hreturn.append (hexpression _ (Source.stops_cons _ (by decide)))).append hend
  have hsolid : ∀ t ∈ Source.dottedTokens 0 (Source.dottedParts runner) ++ ([] : List Token) ++
      Source.dottedTokens 0 (Source.dottedParts receiver), t.isTrivia = false := fun t ht => by
    simp only [List.mem_append, List.not_mem_nil, or_false] at ht
    exact ht.elim Source.not_isTrivia_dotted Source.not_isTrivia_dotted
  have hnest : Nested (Source.dottedTokens 0 (Source.dottedParts runner) ++ ([] : List Token) ++
      Source.dottedTokens 0 (Source.dottedParts receiver)) := Source.nested_of_plain fun t ht => by
    simp only [List.mem_append, List.not_mem_nil, or_false] at ht
    exact ht.elim (Source.plain_dotted hrunner.1) (Source.plain_dotted hreceiver)
  have hdeclared : Emits (lineAt level (methodLine ["public", "override"] runner "Configure"
      (runner ++ space ++ receiver)) ++ braced level
        (lineAt (level + 1) (("return " : Bytes) ++ expression ++ (";" : Bytes))))
      (IsMember "Configure" .method False) :=
    emits_declared level (by simp) (by decide) hrunner (isWord_fixed _ (by decide)) (by decide)
      hparams hsolid hnest hinner
  exact hdeclared

/-! ## Members that are carried over -/

/-- **A method that is carried over is read as the method it was.** -/
theorem emits_method {cut : Nat → Nat → Bytes} {owner text : Bytes} {pos : Nat} {g rest : List Token}
    {m : Source.Member} (level column : Nat) (hpiece : Source.Piece pos text g)
    (hm : Source.memberOf cut owner g = .ok m) (hmethod : m.isMethod = true)
    (hsplit : Source.memberSplit (g ++ rest) = (g, rest)) (hnest : Nested g)
    (hsound : ∀ t ∈ g, t.isWord = true → t.isName = true) :
    Emits (rawLines (reindent text column (pad level))) (IsMember m.name .method (rest = [])) := by
  obtain ⟨t, more, rfl, hfirst⟩ := Source.head_of_carried hm
    (Source.isCarried_of_signature (Source.signature_of_isMethod hmethod)) hsound
  obtain ⟨hsolid, hends⟩ := hpiece.fresh fun x hx => by
    cases hx
    exact hfirst _ (by simp)
  refine (emits_lines (lines_reindent column (isGapText_pad level) pos hends)).mono fun ts hts hthin => ?_
  rw [hsolid] at hthin
  exact Source.isMember_thin hm hmethod hsplit hnest hthin hts

theorem propertyModifiers_eq {visibility : Bytes} (fixed : Bool)
    (hvis : visibility = "public" ∨ visibility = "private") :
    ∃ ws : List Bytes, ws ≠ [] ∧ (∀ w ∈ ws, w ∈ Source.modifierWords) ∧
      Member.propertyModifiers visibility fixed = Bytes.joinWith space ws := by
  have hself : ∃ ws : List Bytes, ws ≠ [] ∧ (∀ w ∈ ws, w ∈ Source.modifierWords) ∧
      visibility = Bytes.joinWith space ws := by
    refine ⟨[visibility], by simp, ?_, rfl⟩
    rcases hvis with rfl | rfl <;> decide
  unfold Member.propertyModifiers
  split
  · exact hself
  · rename_i hvirtual
    rcases hvis with rfl | rfl
    · exact ⟨["public", "virtual"], by simp, by decide, by decide⟩
    · exact absurd (by simp) hvirtual

/-- **A property that is carried over is read as a property.** -/
theorem emits_property {c : Class} {name type visibility : Bytes} {g₀ types more : List Token}
    {word : Token} (level : Nat) (fixed : Bool) (dropped : List Bytes)
    (hattr : IsDotted c.propertyAttribute) (hvis : visibility = "public" ∨ visibility = "private")
    (h : Source.Headed g₀ types word more)
    (hread : ∀ r, ∃ f, Reads false type types (space ++ r) f) (hsolid : ∀ t ∈ types, t.isTrivia = false)
    (htypes : Nested types) (hpass : Source.Passes types) (hname : IsWord name)
    (hnamed : name ≠ "this" ∧ name ≠ "operator") :
    Emits ((Member.property name type visibility fixed dropped).render level c)
      (IsMember name .property False) := by
  obtain ⟨ws, hne, hws, hmods⟩ := propertyModifiers_eq fixed hvis
  have hsection : ∀ r, ∃ f, Reads true (("[" : Bytes) ++ c.propertyAttribute ++ ("()]" : Bytes))
      ([Token.ofMark "["] ++ Source.dottedTokens 0 (Source.dottedParts c.propertyAttribute) ++
        [Token.ofMark "(", Token.ofMark ")", Token.ofMark "]"]) (Bytes.newline :: r) f := fun r => by
    obtain ⟨f, hend⟩ : ∃ f, Reads false ("()]" : Bytes) [Token.ofMark "(", Token.ofMark ")", Token.ofMark "]"]
        (Bytes.newline :: r) f := Source.reads_fixed (fixed_text (by simp [fixedTexts]) false) _
    have hopen : Reads true ("[" : Bytes) [.ofMark "["]
        (c.propertyAttribute ++ (("()]" : Bytes) ++ Bytes.newline :: r)) false :=
      Source.reads_mark true _ (by decide) (by decide)
    have hdotted := Source.reads_dotted hattr false
      (Source.stops_cons (x := '('.toUInt8) ((")]" : Bytes) ++ Bytes.newline :: r) (by decide))
    exact ⟨f, (hopen.append hdotted).append hend⟩
  have hdeclaration : ∀ r, ∃ f, Reads true (Member.propertyModifiers visibility fixed ++ (" " : Bytes) ++ type
        ++ (" " : Bytes) ++ name ++ (" \x7b get; set; \x7d" : Bytes))
      (ws.map Token.ofWord ++ ([] : List Token) ++ types ++ ([] : List Token) ++ [Token.ofWord name] ++
        (Token.ofMark Bytes.leftBrace :: Source.autoTokens ++ [Token.ofMark Bytes.rightBrace]))
      (Bytes.newline :: r) f := by
    intro r
    obtain ⟨f, htype⟩ := hread (name ++ ((" \x7b get; set; \x7d" : Bytes) ++ Bytes.newline :: r))
    obtain ⟨f', hblock⟩ : ∃ f, Reads false (" \x7b get; set; \x7d" : Bytes)
        (Token.ofMark Bytes.leftBrace :: Source.autoTokens ++ [Token.ofMark Bytes.rightBrace])
        (Bytes.newline :: r) f := Source.reads_fixed (fixed_text (by simp [fixedTexts]) false) _
    have hword := Source.reads_word hname f
      (stops_space (("\x7b get; set; \x7d" : Bytes) ++ Bytes.newline :: r))
    have hmodifiers := reads_words hne (fun w hw => isWord_of_modifier (hws w hw)) true
      (stops_space (type ++ (space ++ (name ++ ((" \x7b get; set; \x7d" : Bytes) ++ Bytes.newline :: r)))))
    rw [hmods]
    exact ⟨f', ((((hmodifiers.append (reads_space false _)).append htype).append
      (reads_space f _)).append hword).append hblock⟩
  have hfirst := emits_line level hsection
  rw [Source.solid_eq_self] at hfirst
  · have hsecond := emits_line level hdeclaration
    rw [Source.solid_eq_self] at hsecond
    · refine (hfirst.append hsecond fun a b ha hb => ha.append hb).mono fun ts hsound hthin => ?_
      have hthin' : Thin (Source.propertyTokens
          (Source.dottedTokens 0 (Source.dottedParts c.propertyAttribute) ++ [Token.ofMark "(", Token.ofMark ")"])
          (ws.map .ofWord) types name) ts := by
        simpa [Source.propertyTokens] using hthin
      refine Source.isMember_property ?_ ?_ (by simpa using hne) h htypes hpass hname hnamed hthin' hsound
      · exact (Source.nested_of_plain fun t ht => Source.plain_dotted hattr ht).append (by decide)
      · intro t ht
        obtain ⟨w, hw, rfl⟩ := List.mem_map.1 ht
        exact isModifier_ofWord (hws w hw)
    · intro t ht
      simp only [Source.autoTokens, List.mem_append, List.mem_map, List.mem_cons, List.not_mem_nil, or_false]
        at ht
      rcases ht with ((⟨w, -, rfl⟩ | ht) | rfl) | (rfl | rfl | rfl | rfl | rfl) | rfl
      · rfl
      · exact hsolid t ht
      all_goals rfl
  · intro t ht
    simp only [List.mem_append, List.mem_cons, List.not_mem_nil, or_false] at ht
    rcases ht with (rfl | ht) | rfl | rfl | rfl
    · rfl
    · exact Source.not_isTrivia_dotted ht
    all_goals rfl

/-- The statements of a condition handler between those that make its arguments and return its result. -/
theorem emits_callbackBody {eventArgs argument body : Bytes} (level : Nat) (hargs : IsDotted eventArgs)
    (hargument : IsWord argument) (hbody : SelfContained body) :
    Emits (Member.callbackBody level eventArgs argument body) Nested := by
  have hfirst : Emits (lineAt level (eventArgs ++ (" " : Bytes) ++ argument ++ (" = new " : Bytes)
      ++ eventArgs ++ ("();" : Bytes))) Nested := by
    refine emits_code level fun r => ?_
    have htype := Source.turns_dotted [] hargs (stops_space
      (argument ++ ((" = new " : Bytes) ++ (eventArgs ++ (("();" : Bytes) ++ Bytes.newline :: r)))))
    have hgap : Turns [] [] space
        (argument ++ ((" = new " : Bytes) ++ (eventArgs ++ (("();" : Bytes) ++ Bytes.newline :: r)))) :=
      Source.turns_gap [] (by simp [Source.IsGapText, Source.isGap]) _
    have hword := Source.turns_word [] hargument (stops_space
      (("= new " : Bytes) ++ (eventArgs ++ (("();" : Bytes) ++ Bytes.newline :: r))))
    have hnew : Turns [] [] (" = new " : Bytes) (eventArgs ++ (("();" : Bytes) ++ Bytes.newline :: r)) :=
      Source.turns_fixed [.ofMark "=", .ofWord "new"] (fixed_text (by simp [fixedTexts])) (by decide)
        (by decide) _
    have htype' := Source.turns_dotted [] hargs
      (Source.stops_cons (x := '('.toUInt8) ((");" : Bytes) ++ Bytes.newline :: r) (by decide))
    have hend : Turns [] [] ("();" : Bytes) (Bytes.newline :: r) :=
      Source.turns_fixed [.ofMark "(", .ofMark ")", .ofMark ";"] (fixed_text (by simp [fixedTexts]))
        (by decide) (by decide) _
    exact ((((htype.append hgap).append hword).append hnew).append htype').append hend
  have hlines : Emits (rawLines (blockLines body (pad level))) Nested :=
    (emits_lines (lines_blockLines (isGapText_pad level) 0 hbody.closed)).mono fun ts _ hthin =>
      hthin.nested (by
        unfold Nested
        rw [Source.unclosed_solid]
        exact hbody.nested)
  have hlast : Emits (lineAt level (("return " : Bytes) ++ argument ++ (".Result;" : Bytes))) Nested := by
    refine emits_code level fun r => ?_
    have hreturn : Turns [] [] ("return " : Bytes) (argument ++ ((".Result;" : Bytes) ++ Bytes.newline :: r)) :=
      Source.turns_fixed [.ofWord "return"] (fixed_text (by simp [fixedTexts])) (by decide) (by decide) _
    have hword := Source.turns_word [] hargument
      (Source.stops_cons (x := '.'.toUInt8) (("Result;" : Bytes) ++ Bytes.newline :: r) (by decide))
    have hend : Turns [] [] (".Result;" : Bytes) (Bytes.newline :: r) :=
      Source.turns_fixed [.ofMark ".", .ofWord "Result", .ofMark ";"] (fixed_text (by simp [fixedTexts]))
        (by decide) (by decide) _
    exact (hreturn.append hword).append hend
  exact (hfirst.append hlines fun _ _ ha hb => ha.append hb).append hlast fun _ _ ha hb => ha.append hb

/-- **A condition handler that is carried over is read as a method.** -/
theorem emits_callback {c : Class} {name argument body : Bytes} {ws : List Bytes} (level : Nat)
    (hne : ws ≠ []) (hws : ∀ w ∈ ws, w ∈ Source.modifierWords) (hargs : IsDotted c.eventArgsType)
    (hname : IsWord name) (hnamed : name ≠ "this" ∧ name ≠ "operator") (hargument : IsWord argument)
    (hbody : SelfContained body) :
    Emits ((Member.callback name (Bytes.joinWith space ws) argument body).render level c)
      (IsMember name .method False) := by
  have htype : Source.IsDottedName "bool" := by
    rw [Source.IsDottedName, IsDotted, show Source.dottedParts "bool" = ["bool"] from rfl]
    exact ⟨List.forall_mem_singleton.2 (isWord_fixed _ (by decide)), List.forall_mem_singleton.2 (by decide)⟩
  have hdeclared : Emits (lineAt level (methodLine ws "bool" name []) ++ braced level
      (Member.callbackBody (level + 1) c.eventArgsType argument body)) (IsMember name .method False) :=
    emits_declared level hne hws htype hname hnamed (fun r => Source.reads_nil false _) (by simp)
      Source.nested_nil (emits_callbackBody (level + 1) hargs hargument hbody)
  have hline : methodLine ws "bool" name [] = Bytes.joinWith space ws ++ (" bool " : Bytes) ++ name
      ++ ("()" : Bytes) := by
    have hbool : (" bool " : Bytes) = space ++ ("bool" : Bytes) ++ space := by decide
    have hparens : ("()" : Bytes) = ("(" : Bytes) ++ (")" : Bytes) := by decide
    rw [methodLine, hbool, hparens]
    simp only [List.append_assoc, List.append_nil]
  rwa [hline] at hdeclared

end Flowsmith.FlowClass
