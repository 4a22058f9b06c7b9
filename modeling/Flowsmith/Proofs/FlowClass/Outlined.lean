import Flowsmith.Proofs.FlowClass.Emits
import Flowsmith.Proofs.Source.Inset

/-!
# The outline of a generated file

A generated file declares its namespace, its using directives and its class. Names that are read back as
texts are cut out of the file, so what is cut is said together with the tokens.

* `Writes T P` : whatever stands around the lines `T`, their tokens and what is cut out have the property `P`;
* `writes_space`, `writes_usings`, `writes_class` : the namespace, the using directives and the class;
* `outline_render` : the outline of the file.
-/

namespace Flowsmith.FlowClass

open Source (Token Reads Thin Nested IsBody IsDotted IsDottedName IsWord Inset Leads Outline Stops raw flat
  solid tokensFrom outlineFrom outline)

/-! ## Lines and what is cut out of them -/

/-- Whatever stands around the lines `T`, the tokens of their code and what is cut out between them have the
property `P`. -/
def Writes (T : Bytes) (P : (Nat → Nat → Bytes) → List Token → Prop) : Prop :=
  ∀ before after, ∃ ts, tokensFrom before.length true (T ++ after)
      = ts ++ tokensFrom (before.length + T.length) true after ∧
    P (before ++ T ++ after).slice (solid ts)

theorem Emits.writes {T : Bytes} {P : List Token → Prop} (h : Emits T P) : Writes T fun _ => P :=
  fun before after => h before.length after

theorem Writes.mono {T : Bytes} {P Q : (Nat → Nat → Bytes) → List Token → Prop} (h : Writes T P)
    (hPQ : ∀ cut ts, P cut ts → Q cut ts) : Writes T Q := fun before after => by
  obtain ⟨ts, heq, hP⟩ := h before after
  exact ⟨ts, heq, hPQ _ _ hP⟩

theorem Writes.append {S T : Bytes} {P Q R : (Nat → Nat → Bytes) → List Token → Prop} (hS : Writes S P)
    (hT : Writes T Q) (hR : ∀ cut a b, P cut a → Q cut b → R cut (a ++ b)) : Writes (S ++ T) R := by
  intro before after
  obtain ⟨a, ha, hP⟩ := hS before (T ++ after)
  obtain ⟨b, hb, hQ⟩ := hT (before ++ S) after
  refine ⟨a ++ b, ?_, ?_⟩
  · rw [List.length_append] at hb
    rw [List.append_assoc, ha, hb, List.length_append, List.append_assoc, Nat.add_assoc]
  · rw [Source.solid_append]
    rw [show before ++ S ++ (T ++ after) = before ++ (S ++ T) ++ after by simp] at hP
    rw [show before ++ S ++ T ++ after = before ++ (S ++ T) ++ after by simp] at hQ
    exact hR _ _ _ hP hQ

/-- A line with a text in it that is cut out as it was written. -/
theorem writes_line {s u e : Bytes} {ss es : List Token} (level : Nat)
    (hs : ∀ r, Reads true s ss (u ++ r) false) (hss : ∀ t ∈ ss, t.isTrivia = false) (hu : Inset u)
    (he : ∀ f r, ∃ f', Reads f e es (Bytes.newline :: r) f') (hes : ∀ t ∈ es, t.isTrivia = false)
    (hstop : ∀ r, ∃ x r', e ++ Bytes.newline :: r = x :: r' ∧ Source.isStop x = true ∧ x ≠ '.'.toUInt8 ∧
      x ≠ '>'.toUInt8) :
    Writes (lineAt level (s ++ u ++ e)) fun cut ts => ∃ a b pos,
      ts = a ++ tokensFrom pos false u ++ b ∧ Thin ss a ∧ Thin es b ∧ raw cut (tokensFrom pos false u) = u := by
  intro before after
  obtain ⟨x, r', hx, hstop, hdot, hangle⟩ := hstop after
  have hlead : Reads true (pad level ++ s) ss (u ++ (e ++ Bytes.newline :: after)) false := by
    have hgap := Source.reads_gap (isGapText_pad level) true (s ++ (u ++ (e ++ Bytes.newline :: after)))
    exact hgap.append (hs _)
  obtain ⟨a, ha, hthin⟩ := hlead before.length
  obtain ⟨f, htokens⟩ := hu.tokens hstop hdot hangle (before.length + (pad level ++ s).length) r'
  obtain ⟨f', hend⟩ := he f after
  obtain ⟨b, hb, hthin'⟩ := (hend.append (Source.reads_newline f' after))
    (before.length + (pad level ++ s).length + u.length)
  rw [List.append_nil] at hthin'
  have hsolid : ∀ t ∈ tokensFrom (before.length + (pad level ++ s).length) false u, t.isTrivia = false := by
    intro t ht
    rw [← Nat.zero_add (before.length + _), Source.tokensFrom_shift] at ht
    obtain ⟨t₀, ht₀, rfl⟩ := List.mem_map.1 ht
    exact hu.solid t₀ ht₀
  refine ⟨a ++ tokensFrom (before.length + (pad level ++ s).length) false u ++ b, ?_,
    a, b, before.length + (pad level ++ s).length, ?_, hthin, hthin', ?_⟩
  · have htext : lineAt level (s ++ u ++ e) ++ after
        = pad level ++ s ++ (u ++ (e ++ Bytes.newline :: after)) := by
      unfold lineAt
      simp
    have hafter : e ++ Bytes.newline :: after = (e ++ [Bytes.newline]) ++ after := by simp
    rw [htext, ha, hx, htokens, ← hx, hafter, hb]
    simp only [lineAt, List.append_assoc, List.length_append, Nat.add_assoc]
  · rw [Source.solid_append, Source.solid_append, Source.solid_eq_self hsolid,
      Source.solid_eq_self (hthin.not_isTrivia hss), Source.solid_eq_self (hthin'.not_isTrivia hes)]
  · have hraw := hu.raw (before ++ (pad level ++ s)) (e ++ [Bytes.newline] ++ after)
    rw [List.length_append] at hraw
    have htext : before ++ (pad level ++ s) ++ u ++ (e ++ [Bytes.newline] ++ after)
        = before ++ lineAt level (s ++ u ++ e) ++ after := by
      unfold lineAt
      simp
    rwa [htext] at hraw

theorem writes_last {s u : Bytes} {ss : List Token} (level : Nat) (hs : ∀ r, Reads true s ss (u ++ r) false)
    (hss : ∀ t ∈ ss, t.isTrivia = false) (hu : Inset u) :
    Writes (lineAt level (s ++ u)) fun cut ts => ∃ a pos,
      ts = a ++ tokensFrom pos false u ∧ Thin ss a ∧ raw cut (tokensFrom pos false u) = u := by
  have hnone : ∀ f r, ∃ f', Reads f [] [] (Bytes.newline :: r) f' := fun f r => ⟨f, Source.reads_nil f _⟩
  have hline := writes_line level hs hss hu hnone (by simp)
    fun r => ⟨Bytes.newline, r, rfl, by decide, by decide, by decide⟩
  rw [List.append_nil] at hline
  refine hline.mono fun cut ts ⟨a, b, pos, hts, ha, hb, hraw⟩ => ⟨a, pos, ?_, ha, hraw⟩
  rw [hts, hb.nil_left, List.append_nil]

/-! ## Namespace and using directives -/

theorem emits_brace (level : Nat) :
    Emits (lineAt level Bytes.leftBrace) fun ts => ∃ t, ts = [t] ∧ t.is Bytes.leftBrace = true := by
  have hopen : Emits (lineAt level Bytes.leftBrace) (Thin [.ofMark Bytes.leftBrace]) :=
    @emits_fixed Bytes.leftBrace [.ofMark Bytes.leftBrace] level (by simp [fixedTexts])
  refine hopen.mono fun ts _ hthin => ?_
  obtain ⟨t, ts, rfl, ht, hnil⟩ := hthin.uncons (by decide)
  exact ⟨t, by rw [hnil.nil_left], by rw [ht.is]; rfl⟩

theorem not_is_dotted {s w : Bytes} (h : IsDotted s) (hw : w ∈ Source.markTexts) (hdot : w ≠ ".") {pos : Nat}
    {t : Token} (ht : t ∈ Source.dottedTokens pos (Source.dottedParts s)) : t.is w = false := by
  rcases Source.isName_of_dotted h ht with hname | hmark
  · exact Source.isName_not_is hname hw
  · exact Source.Token.not_is hmark (Ne.symm hdot)

/-- **The namespace.** -/
theorem writes_space {space : Bytes} (level : Nat) (h : IsDotted space) :
    Writes (lineAt level (("namespace " : Bytes) ++ space) ++ lineAt level Bytes.leftBrace) fun cut ts =>
      ∀ (found : Outline) before, found.space = [] → Leads cut found before ts { found with space := space } := by
  have hkey : ∀ r, Reads true ("namespace " : Bytes) [Token.ofWord "namespace"] (space ++ r) false := fun r => by
    have hword : Reads true ("namespace" : Bytes) [.ofWord "namespace"]
        (FlowClass.space ++ (space ++ r)) false :=
      Source.reads_word (isWord_fixed _ (by decide)) true (stops_space _)
    exact hword.append (reads_space false _)
  have hline := writes_last level hkey (by decide) (Source.inset_dotted h)
  refine hline.append (emits_brace level).writes ?_
  rintro cut _ _ ⟨a, pos, rfl, ha, hraw⟩ ⟨stop, rfl, hstop⟩ found before hspace
  obtain ⟨t, a, rfl, ht, hnil⟩ := ha.uncons (by decide)
  rw [hnil.nil_left]
  rw [Source.tokensFrom_dotted_alone h] at hraw ⊢
  have hkeyword : t.is "namespace" = true := by
    rw [ht.is]
    rfl
  have hparts : ∀ x ∈ Source.dottedTokens pos (Source.dottedParts space),
      (x.is Bytes.leftBrace || x.is ";") = false := fun x hx => by
    rw [not_is_dotted h (by decide) (by decide) hx, not_is_dotted h (by decide) (by decide) hx]
    rfl
  have hbar : (stop.is Bytes.leftBrace || stop.is ";") = true := by
    rw [hstop]
    rfl
  have hlead : Leads cut found before ((t :: Source.dottedTokens pos (Source.dottedParts space)) ++ [stop])
      { found with space := flat cut (Source.dottedTokens pos (Source.dottedParts space)) } :=
    Source.leads_space before hkeyword hspace hparts hbar
  rwa [Source.flat_of_raw (Source.inset_dotted h) hraw] at hlead

/-- A text that can be the target of a using directive. -/
structure IsUsing (u : Bytes) : Prop where
  inset : Inset u
  head : (tokensFrom 0 false u).head?.any (·.isWord) = true
  inner : ∀ t ∈ tokensFrom 0 false u, t.is ";" = false

/-- **A using directive.** -/
theorem writes_using {u : Bytes} (level : Nat) (h : IsUsing u) :
    Writes (lineAt level (("using " : Bytes) ++ u ++ (";" : Bytes))) fun cut ts =>
      ∀ (found : Outline) before, Leads cut found before ts { found with usings := found.usings ++ [u] } := by
  have hkey : ∀ r, Reads true ("using " : Bytes) [Token.ofWord "using"] (u ++ r) false := fun r => by
    have hword : Reads true ("using" : Bytes) [Token.ofWord "using"] (space ++ (u ++ r)) false :=
      Source.reads_word (isWord_fixed _ (by decide)) true (stops_space _)
    exact hword.append (reads_space false _)
  have hend : ∀ f r, ∃ f', Reads f (";" : Bytes) [.ofMark ";"] (Bytes.newline :: r) f' := fun f r =>
    ⟨false, Source.reads_mark f _ (by decide) (by decide)⟩
  refine (writes_line level hkey (by decide) h.inset hend (by decide) fun r =>
    ⟨';'.toUInt8, Bytes.newline :: r, rfl, by decide, by decide, by decide⟩).mono ?_
  rintro cut _ ⟨a, b, pos, rfl, ha, hb, hraw⟩ found before
  obtain ⟨t, a, rfl, ht, hnil⟩ := ha.uncons (by decide)
  obtain ⟨stop, b, rfl, hstop, hnil'⟩ := hb.uncons (by decide)
  rw [hnil.nil_left, hnil'.nil_left]
  have hshift : tokensFrom pos false u = (tokensFrom 0 false u).map (Source.Token.shift pos) := by
    rw [← Source.tokensFrom_shift, Nat.zero_add]
  have hkeyword : t.is "using" = true := by
    rw [ht.is]
    rfl
  have hhead : (tokensFrom pos false u ++ [stop]).head?.any (·.isWord) = true := by
    have hfirst := h.head
    rw [hshift]
    cases hts : tokensFrom 0 false u with
    | nil =>
      rw [hts] at hfirst
      cases hfirst
    | cons x xs =>
      rw [hts] at hfirst
      exact hfirst
  have hinner : ∀ x ∈ tokensFrom pos false u, x.is ";" = false := fun x hx => by
    rw [hshift] at hx
    obtain ⟨x₀, hx₀, rfl⟩ := List.mem_map.1 hx
    rw [Source.Token.shift_is]
    exact h.inner x₀ hx₀
  have hsemicolon : stop.is ";" = true := by
    rw [hstop.is]
    rfl
  have hlead : Leads cut found before ((t :: tokensFrom pos false u) ++ [stop])
      { found with usings := found.usings ++ [flat cut (tokensFrom pos false u)] } :=
    Source.leads_using found before hkeyword hhead hinner hsemicolon
  rwa [Source.flat_of_raw h.inset hraw] at hlead

theorem leads_none (cut : Nat → Nat → Bytes) (found : Outline) (before : List Token) :
    Leads cut found before [] { found with usings := found.usings ++ [] } := by
  rw [List.append_nil]
  exact Source.leads_nil cut found before

/-- **The using directives**, with the empty lines after them. -/
theorem writes_usings {usings : List Bytes} (level : Nat) (h : ∀ u ∈ usings, IsUsing u) :
    Writes (usings.flatMap (fun u => lineAt level (("using " : Bytes) ++ u ++ (";" : Bytes)))
        ++ (if usings.isEmpty then [] else ("\n\n" : Bytes))) fun cut ts =>
      ∀ (found : Outline) before, Leads cut found before ts { found with usings := found.usings ++ usings } := by
  have hlines : Writes (usings.flatMap fun u => lineAt level (("using " : Bytes) ++ u ++ (";" : Bytes)))
      fun cut ts => ∀ (found : Outline) before,
        Leads cut found before ts { found with usings := found.usings ++ usings } := by
    induction usings with
    | nil => exact emits_nil.writes.mono fun cut ts hts found before => hts ▸ leads_none cut found before
    | cons u us ih =>
      refine (writes_using level (h u List.mem_cons_self)).append
        (ih fun v hv => h v (List.mem_cons_of_mem _ hv)) fun cut a b ha hb found before => ?_
      have happ := (ha found before).append (hb _ _)
      simp only [List.append_assoc, List.singleton_append] at happ
      exact happ
  have hblank : Writes (if usings.isEmpty then [] else ("\n\n" : Bytes)) fun _ ts => ts = [] := by
    split
    · exact emits_nil.writes
    · exact (emits_newline.append emits_newline fun a b ha hb => by rw [ha, hb]; rfl).writes
  refine hlines.append hblank fun cut a b ha hb found before => ?_
  rw [hb, List.append_nil]
  exact ha found before

/-! ## The class -/

def beginsHeading (t : Token) : Bool := t.is "using" || t.is "namespace" || t.is "class"

theorem leads_idle {cut : Nat → Nat → Bytes} {ts : List Token} (h : ∀ t ∈ ts, beginsHeading t = false)
    (found : Outline) (before : List Token) : Leads cut found before ts found := by
  induction ts generalizing before with
  | nil => exact Source.leads_nil cut found before
  | cons t ts ih =>
    intro trivia rest
    have ht := h t List.mem_cons_self
    simp only [beginsHeading, Bool.or_eq_false_iff] at ht
    rw [List.cons_append, outlineFrom, ht.1.1, ht.1.2, ht.2]
    simp only [Bool.false_and, Bool.false_eq_true, if_false]
    rw [ih (fun x hx => h x (List.mem_cons_of_mem _ hx)) (t :: before) trivia rest, List.reverse_cons,
      List.append_assoc]
    rfl

theorem beginsHeading_alike {t t' : Token} (h : Source.Alike t t') : beginsHeading t' = beginsHeading t := by
  simp only [beginsHeading, h.is]

theorem idle_thin {ts ts' : List Token} (h : Thin ts ts') (hts : ∀ t ∈ ts, beginsHeading t = false) :
    ∀ t ∈ ts', beginsHeading t = false := fun t' ht' => by
  obtain ⟨t, ht, halike⟩ := h.exists_alike ht'
  rw [beginsHeading_alike halike]
  exact hts t ht

theorem idle_dotted {s : Bytes} (h : IsDottedName s) {pos : Nat} {t : Token}
    (ht : t ∈ Source.dottedTokens pos (Source.dottedParts s)) : beginsHeading t = false := by
  have hnot : ∀ w ∈ Source.reservedWords, w ≠ "." → t.is w = false := fun w hw hdot => by
    refine Source.not_is_of_text_ne fun htext => ?_
    rcases Source.mem_dottedTokens ht with ⟨-, hmem⟩ | ⟨-, hmark⟩
    · rw [htext] at hmem
      exact h.2 w hmem hw
    · exact hdot (htext.symm.trans hmark)
  rw [beginsHeading, hnot "using" (by decide) (by decide), hnot "namespace" (by decide) (by decide),
    hnot "class" (by decide) (by decide)]
  rfl

theorem emits_attribute (o : ClassOptions) (name : Bytes) (level : Nat)
    (h : IsDottedName o.configurationAttribute) :
    Emits ((build o name).attributes.flatMap fun a => lineAt level a.render) fun ts =>
      (∀ t ∈ ts, beginsHeading t = false) ∧ ∃ xs t, ts = xs ++ [t] ∧ t.is "]" = true := by
  let value := Text.quoted (configuredName o.names name)
  -- what follows the name of the flow
  obtain ⟨rest, hrender, more, hmore, hidle⟩ : ∃ rest : Bytes,
      (build o name).attributes.flatMap (fun a => lineAt level a.render) = lineAt level
        (("[" : Bytes) ++ o.configurationAttribute ++ ("(" : Bytes) ++ ("Name" : Bytes) ++ ("=" : Bytes)
          ++ value ++ rest) ∧
      ∃ more : List Token, (∀ r, ∃ f, Reads false rest (more ++ [Token.ofMark "]"]) r f) ∧
        ∀ t ∈ more, t.isTrivia = false ∧ beginsHeading t = false := by
    cases hlegacy : isLegacy o.legacyStart name with
    | true =>
      refine ⟨", LegacyMode=true)]", ?_, [.ofMark ",", .ofWord "LegacyMode", .ofMark "=", .ofWord "true",
        .ofMark ")"], Source.reads_fixed (fixed_text (by simp [fixedTexts]) false), by decide⟩
      have htail : (", " : Bytes) ++ (("LegacyMode" : Bytes) ++ ("=" : Bytes) ++ ("true" : Bytes))
          ++ (")]" : Bytes) = ", LegacyMode=true)]" := by decide
      rw [← htail]
      simp [build, hlegacy, Attribute.render, Bytes.joinWith, value]
    | false =>
      refine ⟨")]", ?_, [.ofMark ")"], Source.reads_fixed (fixed_text (by simp [fixedTexts]) false), by decide⟩
      simp [build, hlegacy, Attribute.render, Bytes.joinWith, value]
  rw [hrender]
  let before : List Token :=
    [Token.ofMark "["] ++ Source.dottedTokens 0 (Source.dottedParts o.configurationAttribute)
    ++ [Token.ofMark "("] ++ [Token.ofWord "Name"] ++ [Token.ofMark "="] ++ [⟨.string, value, 0⟩]
  have hread : ∀ r, ∃ f, Reads true (("[" : Bytes) ++ o.configurationAttribute ++ ("(" : Bytes)
      ++ ("Name" : Bytes) ++ ("=" : Bytes) ++ value ++ rest) (before ++ (more ++ [Token.ofMark "]"]))
      (Bytes.newline :: r) f := fun r => by
    obtain ⟨f, hrest⟩ := hmore (Bytes.newline :: r)
    have hopen : Reads true ("[" : Bytes) [Token.ofMark "["] (o.configurationAttribute ++ (("(" : Bytes)
        ++ (("Name" : Bytes) ++ (("=" : Bytes) ++ (value ++ (rest ++ Bytes.newline :: r)))))) false :=
      Source.reads_mark true _ (by decide) (by decide)
    have hdotted := Source.reads_dotted h.1 false (Source.stops_cons (x := '('.toUInt8)
      (("Name" : Bytes) ++ (("=" : Bytes) ++ (value ++ (rest ++ Bytes.newline :: r)))) (by decide))
    have hparen : Reads false ("(" : Bytes) [Token.ofMark "("] (("Name" : Bytes) ++ (("=" : Bytes)
        ++ (value ++ (rest ++ Bytes.newline :: r)))) false := Source.reads_mark false _ (by decide) (by decide)
    have hname : Reads false ("Name" : Bytes) [Token.ofWord "Name"] (("=" : Bytes)
        ++ (value ++ (rest ++ Bytes.newline :: r))) false :=
      Source.reads_word (isWord_fixed _ (by decide)) false (Source.stops_cons (x := '='.toUInt8) _ (by decide))
    have hequals : Reads false ("=" : Bytes) [Token.ofMark "="] (value ++ (rest ++ Bytes.newline :: r)) false :=
      Source.reads_equals false (by
        simp only [value, Text.quoted, List.append_assoc, List.cons_append, List.head?_cons]
        decide)
    have hvalue := Source.reads_quoted (configuredName o.names name) false (rest ++ Bytes.newline :: r)
    exact ⟨f, (((((hopen.append hdotted).append hparen).append hname).append hequals).append hvalue).append
      hrest⟩
  have hbefore : ∀ t ∈ before, t.isTrivia = false ∧ beginsHeading t = false := fun t ht => by
    simp only [before, List.mem_append, List.mem_singleton] at ht
    rcases ht with ((((rfl | ht) | rfl) | rfl) | rfl) | rfl
    · decide
    · exact ⟨Source.not_isTrivia_dotted ht, idle_dotted h ht⟩
    · decide
    · decide
    · decide
    · exact ⟨rfl, by simp [beginsHeading, Token.is]⟩
  have hall : ∀ t ∈ before ++ (more ++ [Token.ofMark "]"]), t.isTrivia = false ∧ beginsHeading t = false := by
    intro t ht
    simp only [List.mem_append, List.mem_singleton] at ht
    rcases ht with ht | ht | rfl
    · exact hbefore t ht
    · exact hidle t ht
    · decide
  have hemits := emits_line level hread
  rw [Source.solid_eq_self fun t ht => (hall t ht).1] at hemits
  refine hemits.mono fun ts _ hthin => ⟨idle_thin hthin fun t ht => (hall t ht).2, ?_⟩
  rw [← List.append_assoc] at hthin
  obtain ⟨xs, ys, rfl, -, hys⟩ := hthin.append_inv
  obtain ⟨t, ys, rfl, ht, hnil⟩ := hys.uncons (by decide)
  exact ⟨xs, t, by rw [hnil.nil_left], by rw [ht.is]; rfl⟩

structure ReadsAs (name base : Bytes) (signatures : List (Bytes × Option Source.Form)) (c : Source.Class) :
    Prop where
  name_eq : c.name = name
  modifiers_eq : c.modifiers = ["public"]
  bases_eq : c.bases = base
  members_eq : c.members.map Source.Member.signature = signatures

theorem writes_declaration {name base : Bytes} (level : Nat) (hname : IsWord name) (hbase : IsDottedName base) :
    Writes (lineAt level (("public class " : Bytes) ++ name ++ (" : " : Bytes) ++ base)) fun cut ts =>
      ∃ vis kw nm colon bases, ts = vis :: kw :: nm :: colon :: bases ∧ vis.is "public" = true ∧
        vis.isWord = true ∧ kw.is "class" = true ∧ (nm.isWord = true ∧ nm.text = name) ∧
        colon.is ":" = true ∧ flat cut bases = base ∧
        ∀ t ∈ bases, t.is Bytes.leftBrace = false ∧ t.is "where" = false := by
  have hhead : ∀ r, Reads true (("public class " : Bytes) ++ name ++ (" : " : Bytes))
      ([Token.ofWord "public", Token.ofWord "class"] ++ [Token.ofWord name] ++ [Token.ofMark ":"])
      (base ++ r) false := fun r => by
    have hwords : Reads true ("public class " : Bytes) [.ofWord "public", .ofWord "class"]
        (name ++ ((" : " : Bytes) ++ (base ++ r))) false := by
      have hpublic : Reads true ("public" : Bytes) [Token.ofWord "public"] (space ++ (("class" : Bytes)
          ++ (space ++ (name ++ ((" : " : Bytes) ++ (base ++ r)))))) false :=
        Source.reads_word (isWord_fixed _ (by decide)) true (stops_space _)
      have hclass : Reads false ("class" : Bytes) [.ofWord "class"]
          (space ++ (name ++ ((" : " : Bytes) ++ (base ++ r)))) false :=
        Source.reads_word (isWord_fixed _ (by decide)) false (stops_space _)
      exact ((hpublic.append (reads_space false _)).append hclass).append (reads_space false _)
    have hword := Source.reads_word hname false (stops_space ((": " : Bytes) ++ (base ++ r)))
    have hmark : Reads false (" : " : Bytes) [Token.ofMark ":"] (base ++ r) false := by
      have hcolon : Reads false (":" : Bytes) [Token.ofMark ":"] (space ++ (base ++ r)) false :=
        Source.reads_mark false _ (by decide) (by decide)
      exact ((reads_space false _).append hcolon).append (reads_space false _)
    exact (hwords.append hword).append hmark
  have hline := writes_last level hhead (by simp [Token.ofWord, Token.ofMark, Token.isTrivia])
    (Source.inset_dotted hbase.1)
  refine hline.mono ?_
  rintro cut _ ⟨a, pos, rfl, ha, hraw⟩
  obtain ⟨vis, a, rfl, hvis, ha⟩ := ha.uncons (by decide)
  obtain ⟨kw, a, rfl, hkw, ha⟩ := ha.uncons (by decide)
  obtain ⟨nm, a, rfl, hnm, ha⟩ := ha.uncons (Source.Token.not_isJunk_of_isWord rfl)
  obtain ⟨colon, a, rfl, hcolon, ha⟩ := ha.uncons (by decide)
  rw [ha.nil_left]
  refine ⟨vis, kw, nm, colon, tokensFrom pos false base, rfl, by rw [hvis.is]; rfl, by rw [hvis.isWord]; rfl,
    by rw [hkw.is]; rfl, ⟨by rw [hnm.isWord]; rfl, hnm.text rfl⟩, by rw [hcolon.is]; rfl,
    Source.flat_of_raw (Source.inset_dotted hbase.1) hraw, fun t ht => ?_⟩
  rw [Source.tokensFrom_dotted_alone hbase.1] at ht
  refine ⟨not_is_dotted hbase.1 (by decide) (by decide) ht, Source.not_is_of_text_ne fun htext => ?_⟩
  rcases Source.mem_dottedTokens ht with ⟨-, hmem⟩ | ⟨-, hmark⟩
  · rw [htext] at hmem
    exact hbase.2 "where" hmem (by decide)
  · exact absurd (htext.symm.trans hmark) (by decide)

theorem classOf_declared {cut : Nat → Nat → Bytes} {trivia before bases body rest : List Token}
    {vis kw nm colon brace close : Token} {name base : Bytes} {signatures : List (Bytes × Option Source.Form)}
    (hbefore : ∀ t, before.head? = some t → Source.isModifier t = false) (hvis : vis.is "public" = true)
    (hvisWord : vis.isWord = true) (hname : nm.text = name) (hcolon : colon.is ":" = true)
    (hbases : ∀ t ∈ bases, t.is Bytes.leftBrace = false ∧ t.is "where" = false) (hbase : flat cut bases = base)
    (hbrace : brace.is Bytes.leftBrace = true) (hclose : close.is Bytes.rightBrace = true)
    (hbody : IsBody signatures body) :
    ∃ c, Source.classOf cut trivia (vis :: before) kw
        (nm :: colon :: (bases ++ brace :: (body ++ close :: rest))) = .ok c ∧
      ReadsAs name base signatures c := by
  have htext : vis.text = "public" := by
    simp only [Token.is, Bool.and_eq_true, beq_iff_eq] at hvis
    exact hvis.2
  have hmods : (vis :: before).takeWhile Source.isModifier = [vis] := by
    have hpublic : Source.isModifier vis = true := by
      rw [Source.isModifier, Source.isWordOf, hvisWord, htext]
      decide
    rw [List.takeWhile_cons_of_pos hpublic]
    cases before with
    | nil => rfl
    | cons t before => rw [List.takeWhile_cons_of_neg (by simp [hbefore t rfl])]
  have hless : Source.startsWith (colon :: (bases ++ brace :: (body ++ close :: rest))) "<" = false :=
    Source.Token.not_is hcolon (by decide)
  have hbased : Source.startsWith (colon :: (bases ++ brace :: (body ++ close :: rest))) ":" = true := hcolon
  have hin : ∀ t ∈ bases, (!(t.is Bytes.leftBrace || t.is "where")) = true := fun t ht => by
    rw [(hbases t ht).1, (hbases t ht).2]
    rfl
  have hout : (!(brace.is Bytes.leftBrace || brace.is "where")) = false := by
    rw [hbrace]
    rfl
  have hhead := (Source.takeWhile_append_cons (body ++ close :: rest) hin hout).1
  have hhead' : ∀ t ∈ colon :: bases, (!t.is Bytes.leftBrace) = true := fun t ht => by
    rcases List.mem_cons.1 ht with rfl | ht
    · simp [Source.Token.not_is hcolon (show (":" : Bytes) ≠ Bytes.leftBrace by decide)]
    · simp [hbases t ht]
  have hout' : (!brace.is Bytes.leftBrace) = false := by
    rw [hbrace]
    rfl
  have hdrop := (Source.takeWhile_append_cons (body ++ close :: rest) hhead' hout').2
  rw [List.cons_append] at hdrop
  have hpair := Source.splitPair_nested Source.mem_braces hbrace hbody.nested hclose rest
  rw [List.cons_append] at hpair
  obtain ⟨ms, hms, hsigs⟩ := hbody.read cut nm.text trivia brace.stop
  unfold Source.classOf
  simp only [List.tail_cons, hless, hbased, hmods, hhead, hdrop, hpair, Bool.false_eq_true, if_false, if_true,
    Source.headText, List.head?_cons, Option.map_some, Option.getD_some, List.cons_append,
    List.dropLast_concat, hname] at hms ⊢
  rw [hms]
  exact ⟨_, rfl, ⟨rfl, by simp [htext], hbase, hsigs⟩⟩

/-- The flow class for a workflow name with the method of its flow and with members. -/
abbrev filled (o : ClassOptions) (name : Bytes) (m : Method) (ms : List Member) : Class :=
  { build o name with configure? := some m, members := ms }

/-- **The class.** -/
theorem writes_class {o : ClassOptions} {name : Bytes} {m : Method} {ms : List Member}
    {signatures : List (Bytes × Option Source.Form)} (level : Nat)
    (hattr : IsDottedName o.configurationAttribute) (hbase : IsDottedName o.flowBase) (hname : IsWord name)
    (hbody : Emits ([Bytes.newline] ++ m.render (level + 1)
      ++ ms.flatMap fun x => [Bytes.newline] ++ x.render (level + 1) (filled o name m ms)) (IsBody signatures)) :
    Writes ((filled o name m ms).render level) fun cut ts =>
      ∀ trivia (found : Outline) before rest, ∃ c,
        outlineFrom cut trivia found before (ts ++ rest) = .ok { found with class? := some c } ∧
        ReadsAs name o.flowBase signatures c := by
  have hdeclaration : (filled o name m ms).declaration
      = ("public class " : Bytes) ++ name ++ (" : " : Bytes) ++ o.flowBase := by
    have hne : o.flowBase.isEmpty = false := by
      have := (Source.inset_dotted hbase.1).nonempty
      simpa using this
    have hpublic : List.isEmpty ("public" : Bytes) = false := by decide
    have hwords : ("public" : Bytes) ++ (" " : Bytes) ++ ("class " : Bytes) = ("public class " : Bytes) := by
      decide
    unfold Class.declaration
    simp only [build, hpublic, Bool.false_eq_true, if_false, hne, ← hwords, List.append_assoc]
  have hlead := (emits_attribute o name level hattr).writes.append (writes_declaration level hname hbase)
    (R := fun cut ts => ∃ attrs last vis kw nm colon bases,
      ts = (attrs ++ [last]) ++ vis :: kw :: nm :: colon :: bases ∧
      (∀ t ∈ attrs ++ [last], beginsHeading t = false) ∧ last.is "]" = true ∧ vis.is "public" = true ∧
      vis.isWord = true ∧ kw.is "class" = true ∧ (nm.isWord = true ∧ nm.text = name) ∧ colon.is ":" = true ∧
      flat cut bases = o.flowBase ∧ ∀ t ∈ bases, t.is Bytes.leftBrace = false ∧ t.is "where" = false)
    fun cut a b ⟨hidle, attrs, last, ha, hlast⟩ ⟨vis, kw, nm, colon, bases, hb, hrest⟩ => by
      subst ha hb
      exact ⟨attrs, last, vis, kw, nm, colon, bases, rfl, hidle, hlast, hrest⟩
  have hwhole := hlead.append (emits_braced level hbody).writes
    (R := fun cut ts => ∀ trivia (found : Outline) before rest, ∃ c,
      outlineFrom cut trivia found before (ts ++ rest) = .ok { found with class? := some c } ∧
      ReadsAs name o.flowBase signatures c) ?_
  · rw [Class.render, hdeclaration]
    exact hwhole
  rintro cut _ _ ⟨attrs, last, vis, kw, nm, colon, bases, rfl, hidle, hlast, hvis, hvisWord, hkw,
    ⟨hnmWord, hnm⟩, hcolon, hflat, hbases⟩ ⟨brace, body, close, rfl, hbrace, hclose, hbody⟩
    trivia found before rest
  have hidle' : ∀ t ∈ (attrs ++ [last]) ++ [vis], beginsHeading t = false := fun t ht => by
    rcases List.mem_append.1 ht with ht | ht
    · exact hidle t ht
    · obtain rfl := List.mem_singleton.1 ht
      have hnot : ∀ w : Bytes, ("public" : Bytes) ≠ w → t.is w = false := fun w => Source.Token.not_is hvis
      rw [beginsHeading, hnot "using" (by decide), hnot "namespace" (by decide), hnot "class" (by decide)]
      rfl
  have hopen : brace.is Bytes.leftBrace = true := by rw [hbrace.is]; rfl
  have hshut : close.is Bytes.rightBrace = true := by rw [hclose.is]; rfl
  have hnone : ∀ t, (last :: (attrs.reverse ++ before)).head? = some t → Source.isModifier t = false := by
    rintro t ⟨⟩
    simp only [Token.is, Bool.and_eq_true, beq_iff_eq] at hlast
    rw [Source.isModifier, Source.isWordOf, hlast.2, Bool.and_eq_false_iff]
    exact .inr (by decide)
  obtain ⟨c, hc, hreads⟩ : ∃ c, Source.classOf cut trivia (vis :: last :: (attrs.reverse ++ before)) kw
      (nm :: colon :: (bases ++ brace :: (body ++ close :: rest))) = .ok c ∧
      ReadsAs name o.flowBase signatures c :=
    classOf_declared hnone hvis hvisWord hnm hcolon hbases hflat hopen hshut hbody
  refine ⟨c, ?_, hreads⟩
  have hbegins : Source.beginsClass (vis :: last :: (attrs.reverse ++ before))
      (nm :: colon :: (bases ++ brace :: (body ++ close :: rest))) = true := by
    have hnot : ∀ w : Bytes, ("public" : Bytes) ≠ w → vis.is w = false := fun w => Source.Token.not_is hvis
    simp [Source.beginsClass, hnmWord, hnot ":" (by decide), hnot "," (by decide), hnot "." (by decide)]
  have hnot : ∀ w : Bytes, ("class" : Bytes) ≠ w → kw.is w = false := fun w => Source.Token.not_is hkw
  calc outlineFrom cut trivia found before ((attrs ++ [last]) ++ vis :: kw :: nm :: colon :: bases
        ++ (brace :: (body ++ [close])) ++ rest)
      = outlineFrom cut trivia found before ((attrs ++ [last] ++ [vis])
          ++ kw :: nm :: colon :: (bases ++ brace :: (body ++ close :: rest))) := by simp
    _ = outlineFrom cut trivia found (vis :: last :: (attrs.reverse ++ before))
          (kw :: nm :: colon :: (bases ++ brace :: (body ++ close :: rest))) := by
        rw [leads_idle hidle' found before trivia]
        simp
    _ = .ok { found with class? := some c } := by
        rw [outlineFrom, hnot "using" (by decide), hnot "namespace" (by decide), hkw, hbegins, hc]
        rfl

/-! ## The file -/

theorem emits_header : Emits fileHeader (· = []) := by
  have hread : (∀ t ∈ tokensFrom 0 true fileHeader.dropLast, Source.textEnds t.text = true) ∧
      solid (tokensFrom 0 true fileHeader.dropLast) = [] ∧
      fileHeader.dropLast ++ [Bytes.newline] = fileHeader := by
    rw [fileHeader]
    repeat rw [Bytes.ofString_ofList]
    decide +kernel
  obtain ⟨hends, hnone, htext⟩ := hread
  have hlines := emits_lines (Source.lines_closed hends)
  rw [hnone, htext] at hlines
  exact hlines.mono fun ts _ hthin => hthin.nil_left

/-- **The outline of a generated file.** -/
theorem outline_render {o : ClassOptions} {name space : Bytes} {usings : List Bytes} {m : Method}
    {ms : List Member} {signatures : List (Bytes × Option Source.Form)} (hspace : IsDotted space)
    (husings : ∀ u ∈ usings, IsUsing u) (hattr : IsDottedName o.configurationAttribute)
    (hbase : IsDottedName o.flowBase) (hname : IsWord name)
    (hbody : Emits ([Bytes.newline] ++ m.render 2
      ++ ms.flatMap fun x => [Bytes.newline] ++ x.render 2 (filled o name m ms)) (IsBody signatures)) :
    ∃ out c, outline (File.render ⟨space, usings, some (filled o name m ms)⟩) = .ok out ∧
      out.space = space ∧ out.usings = usings ∧ out.class? = some c ∧ ReadsAs name o.flowBase signatures c := by
  let cls : Class := filled o name m ms
  have hlead := (emits_header.writes.append (writes_space 0 hspace)
      (R := fun cut ts => ∀ (found : Outline) before, found.space = [] →
        Leads cut found before ts { found with space := space }) fun cut a b ha hb => ha ▸ hb).append
    (writes_usings 1 husings) (R := fun cut ts => ∀ (found : Outline) before, found.space = [] →
      Leads cut found before ts { found with space := space, usings := found.usings ++ usings })
    fun cut a b ha hb found before hnone => (ha found before hnone).append (hb _ _)
  have hall := hlead.append (writes_class 1 hattr hbase hname hbody)
    (R := fun cut ts => ∀ trivia rest, ∃ c,
      outlineFrom cut trivia {} [] (ts ++ rest) = .ok { usings := usings, space := space, class? := some c } ∧
      ReadsAs name o.flowBase signatures c) fun cut a b ha hb trivia rest => by
    obtain ⟨c, hc, hreads⟩ := hb trivia _ (a.reverse ++ []) rest
    exact ⟨c, by rw [List.append_assoc, ha {} [] rfl trivia, hc]; rfl, hreads⟩
  have htext : File.render ⟨space, usings, some cls⟩ = fileHeader
      ++ (lineAt 0 (("namespace " : Bytes) ++ space) ++ lineAt 0 Bytes.leftBrace)
      ++ (usings.flatMap (fun u => lineAt 1 (("using " : Bytes) ++ u ++ (";" : Bytes)))
        ++ (if usings.isEmpty then [] else ("\n\n" : Bytes)))
      ++ cls.render 1 ++ lineAt 0 Bytes.rightBrace := by
    have hne : space.isEmpty = false := by simpa using (Source.inset_dotted hspace).nonempty
    unfold File.render
    simp [hne, braced, File.renderBody]
  obtain ⟨ts, hts, hread⟩ := hall [] (lineAt 0 Bytes.rightBrace)
  rw [List.nil_append, ← htext] at hread
  rw [← htext] at hts
  generalize tokensFrom _ true (lineAt 0 Bytes.rightBrace) = rest at hts
  obtain ⟨c, hc, hreads⟩ := hread
    ((Source.tokens (File.render ⟨space, usings, some cls⟩)).filter (·.isTrivia)) (solid rest)
  refine ⟨{ usings := usings, space := space, class? := some c }, c, ?_, rfl, rfl, rfl, hreads⟩
  rw [← Source.solid_append, ← hts] at hc
  exact hc

end Flowsmith.FlowClass
