import Flowsmith.Proofs.Activity.Again
import Flowsmith.Proofs.Source.Headings

/-!
# Added using directives

Using directives are added in front of the first one that the text search finds, for the namespaces that
no line imports. When the search and the scanner see the same directives, the outline of the source has
the new directives in front of the old ones, and is the same otherwise.

* `directiveChunks` : a using directive with blanks between its words;
* `outlineFrom_usingLines` : added directives are read back;
* `Directive`, `InSight` : where the search finds a directive, and that the scanner agrees with it;
  `imports_iff_mem` : what is imported is listed in the outline;
* `outline_addUsings` : the outline of a source with added directives.
-/

namespace Flowsmith.Activity

open Bytes (newline isLetterByte)
open Text (isSpace leads)
open Source (Token Chunk Each Outline Heading IsDotted IsWord Stops At Closes render place solid tokens
  tokensFrom headings outline outlineFrom dottedParts flat)

/-! ## A directive in chunks -/

/-- The parts of a dotted name with dots between them. -/
def dottedChunks : List Bytes → List Chunk
  | [] => []
  | [part] => [.word part]
  | part :: next :: parts => .word part :: .mark "." :: dottedChunks (next :: parts)

theorem render_dottedChunks (parts : List Bytes) :
    render (dottedChunks parts) = Bytes.joinWith ['.'.toUInt8] parts := by
  induction parts with
  | nil => rfl
  | cons part parts ih =>
    cases parts with
    | nil => exact List.append_nil part
    | cons next parts =>
      rw [dottedChunks, Source.render_cons, Source.render_cons, ih, Bytes.joinWith, List.append_assoc]
      rfl

theorem render_dotted (space : Bytes) : render (dottedChunks (dottedParts space)) = space := by
  rw [render_dottedChunks]
  exact Bytes.joinWith_splitOn _ _

/-- Names with dots between them stand in front of everything that ends words. -/
theorem tidy_dotted {parts : List Bytes} (h : ∀ part ∈ parts, IsWord part) {r : Bytes} (hr : Stops r) :
    Each (fun r p => p.Stands r ∧ p.Neat r) (dottedChunks parts) r := by
  induction parts with
  | nil => trivial
  | cons part parts ih =>
    have hpart := h part List.mem_cons_self
    cases parts with
    | nil => exact ⟨⟨⟨hpart, hr⟩, hpart, hr⟩, trivial⟩
    | cons next parts =>
      have hdot := Source.stops_mark (m := ".") (by decide) (dottedChunks (next :: parts)) r
      exact ⟨⟨⟨hpart, hdot⟩, hpart, hdot⟩, ⟨Source.stands_mark (by decide) _, Source.neat_mark (by decide) _⟩,
        ih fun p hp => h p (List.mem_cons_of_mem _ hp)⟩

theorem dottedChunks_head (part : Bytes) (parts : List Bytes) :
    ∃ ps, dottedChunks (part :: parts) = .word part :: ps := by
  cases parts <;> exact ⟨_, rfl⟩

theorem closes_dotted (part : Bytes) (parts : List Bytes) : Closes (dottedChunks (part :: parts)) := by
  induction parts generalizing part with
  | nil => exact Source.closes_word part
  | cons next parts ih => exact (ih next).append [.word part, .mark "."]

/-- A dotted name is cut out as it was written. -/
theorem flat_dotted {space : Bytes} (h : IsDotted space) {src : Bytes} {pos : Nat} (hat : At src pos space) :
    flat src.slice (place pos (dottedChunks (dottedParts space))) = space := by
  have hneat : Each (fun r p => p.Neat r) (dottedChunks (dottedParts space)) [] :=
    Source.each_mono (fun _ _ h => h.2) (tidy_dotted h fun x hx => by cases hx)
  have hrender := render_dotted space
  obtain ⟨part, parts, hparts⟩ := List.exists_cons_of_ne_nil (Bytes.splitOn_ne_nil '.'.toUInt8 space)
  have hparts : dottedParts space = part :: parts := hparts
  rw [hparts] at hneat hrender ⊢
  obtain ⟨ps, hps⟩ := dottedChunks_head part parts
  have hcloses := closes_dotted part parts
  have hfirst := hneat
  rw [hps] at hfirst hcloses
  obtain ⟨⟨hword, hstop⟩, -⟩ := hfirst
  rw [List.append_nil] at hstop
  have hne : part ≠ [] := (unbroken_of_isWord hword).1
  have hspans := Source.spans_place hcloses pos
  rw [← hps, hrender] at hspans
  rw [flat, Source.raw_of_spans hat hspans, ← hrender]
  refine Source.collapse_render hneat ?_ ?_
  · rw [hps, Source.render_cons]
    simp [Chunk.text, hne]
  · rw [hps, Source.render_cons]
    exact Source.blankSize_word hword (List.nil_append _).symm hne hstop

/-- A using directive with the blanks `g` and `b` in it. -/
def directiveChunks (g space b : Bytes) : List Chunk :=
  .word "using" :: .gap g :: (dottedChunks (dottedParts space) ++ [.gap b, .mark ";"])

theorem render_directive (g space b : Bytes) :
    render (directiveChunks g space b) = ("using" : Bytes) ++ (g ++ (space ++ (b ++ [0x3B]))) := by
  rw [directiveChunks, Source.render_cons, Source.render_cons, Source.render_append, render_dotted]
  simp [Chunk.text]
  rfl

theorem stands_directive {g space b : Bytes} (hg : g ≠ [] ∧ ∀ c ∈ g, isSpace c = true) (h : IsDotted space)
    (hb : ∀ c ∈ b, isSpace c = true) (r : Bytes) :
    Each (fun r p => p.Stands r) (directiveChunks g space b) r := by
  have hgap : ∀ {b : Bytes}, (∀ c ∈ b, isSpace c = true) → ∀ c ∈ b, Source.isBlankByte c = true :=
    fun hb c hc => Source.isBlankByte_of_isSpace (hb c hc)
  obtain ⟨c, g', rfl⟩ := List.exists_cons_of_ne_nil hg.1
  refine ⟨⟨Source.isWord_declaring _ (by decide),
      Source.stops_blank (Source.isBlankByte_of_isSpace (hg.2 c List.mem_cons_self)) _⟩,
    hgap hg.2, (Source.each_append _ _ _).2 ⟨?_, hgap hb, Source.stands_mark (by decide) _, trivial⟩⟩
  refine Source.each_mono (fun _ _ h => h.1) (tidy_dotted h ?_)
  cases b with
  | nil => exact Source.stops_semicolon _
  | cons d b => exact Source.stops_blank (Source.isBlankByte_of_isSpace (hb d List.mem_cons_self)) _

theorem place_directive (g space b : Bytes) (pos : Nat) :
    ∃ stop : Token, stop.is ";" = true ∧ place pos (directiveChunks g space b)
      = (⟨.word, "using", pos⟩ :: place (pos + 5 + g.length) (dottedChunks (dottedParts space))) ++ [stop] := by
  refine ⟨⟨.mark, ";", pos + 5 + g.length + (render (dottedChunks (dottedParts space))).length + b.length⟩,
    rfl, ?_⟩
  rw [directiveChunks, Source.place_cons, Source.place_cons, Source.place_append]
  rfl

theorem not_semicolon_dotted {parts : List Bytes} (h : ∀ part ∈ parts, IsWord part) (pos : Nat) :
    ∀ t ∈ place pos (dottedChunks parts), t.is ";" = false := by
  have hword : ∀ part pos, IsWord part → Token.is ⟨.word, part, pos⟩ ";" = false := fun part pos hpart =>
    Source.not_is_of_text_ne fun heq => by
      have heq : part = ";" := heq
      rw [heq] at hpart
      revert hpart
      decide +kernel
  induction parts generalizing pos with
  | nil => simp [dottedChunks]
  | cons part parts ih =>
    have hpart := h part List.mem_cons_self
    cases parts with
    | nil =>
      intro t ht
      rw [List.mem_singleton.1 ht]
      exact hword part pos hpart
    | cons next parts =>
      intro t ht
      rcases List.mem_cons.1 ht with rfl | ht
      · exact hword part pos hpart
      · rcases List.mem_cons.1 ht with rfl | ht
        · rfl
        · exact ih (fun p hp => h p (List.mem_cons_of_mem _ hp)) _ t ht

theorem dotted_head (space : Bytes) (pos : Nat) (stop : Token) :
    (place pos (dottedChunks (dottedParts space)) ++ [stop]).head?.any (·.isWord) = true := by
  obtain ⟨part, parts, hparts⟩ := List.exists_cons_of_ne_nil (Bytes.splitOn_ne_nil '.'.toUInt8 space)
  obtain ⟨ps, hps⟩ := dottedChunks_head part parts
  rw [show dottedParts space = part :: parts from hparts, hps]
  rfl

/-- **A using directive as the text search sees it** is read as one. -/
theorem BeginsUsing.solid {space t : Bytes} (h : BeginsUsing space t) (hspace : IsDotted space) (pos : Nat)
    (f : Bool) : ∃ g b r stop f', t = ("using" : Bytes) ++ (g ++ (space ++ (b ++ 0x3B :: r))) ∧
      stop.is ";" = true ∧ solid (tokensFrom pos f t)
        = (⟨.word, "using", pos⟩ :: place (pos + 5 + g.length) (dottedChunks (dottedParts space))) ++ stop
          :: solid (tokensFrom (pos + (t.length - r.length)) f' r) := by
  obtain ⟨g, b, r, rfl, hg, hgspace, hb⟩ := h
  obtain ⟨f', heq⟩ := Source.solid_render (stands_directive ⟨hg, hgspace⟩ hspace hb r) pos f
  obtain ⟨stop, hstop, hplace⟩ := place_directive g space b pos
  have htext : ("using" : Bytes) ++ (g ++ (space ++ (b ++ 0x3B :: r)))
      = render (directiveChunks g space b) ++ r := by
    rw [render_directive]
    simp only [List.append_assoc, List.singleton_append]
  refine ⟨g, b, r, stop, f', rfl, hstop, ?_⟩
  rw [htext, heq, hplace, List.length_append, Nat.add_sub_cancel, List.append_assoc,
    List.singleton_append]

/-! ## Added directives -/

/-- The walk passes a directive and has found its target then. -/
theorem leads_directive {src g space b : Bytes} (h : IsDotted space) {pos : Nat}
    (hat : At src pos (render (directiveChunks g space b))) (found : Outline) (before : List Token) :
    Source.Leads src.slice found before (place pos (directiveChunks g space b))
      { found with usings := found.usings ++ [space] } := by
  obtain ⟨stop, hstop, hplace⟩ := place_directive g space b pos
  have hname : At src (pos + 5 + g.length) space := by
    rw [render_directive] at hat
    exact hat.right.right.left
  have hflat := flat_dotted h hname
  rw [hplace]
  conv => rhs; rw [← hflat]
  exact Source.leads_using found before rfl (dotted_head space _ stop) (not_semicolon_dotted h _) hstop

theorem usingLine_append (space r : Bytes) :
    usingLine space ++ r = render (directiveChunks [0x20] space []) ++ newline :: r := by
  rw [usingLine_eq, render_directive]
  simp
  rfl

/-- **Added directives are read back**, and behind them a line begins. -/
theorem outlineFrom_usingLines {src : Bytes} {spaces : List Bytes} (trivia : List Token)
    (h : ∀ space ∈ spaces, IsDotted space) (hne : spaces ≠ []) (found : Outline) (before : List Token)
    {pos : Nat} {r : Bytes} (hat : At src pos (spaces.flatMap usingLine ++ r)) (f : Bool) :
    ∃ stop before', stop.is ";" = true ∧
      outlineFrom src.slice trivia found before (solid (tokensFrom pos f (spaces.flatMap usingLine ++ r)))
        = outlineFrom src.slice trivia { found with usings := found.usings ++ spaces } (stop :: before')
          (solid (tokensFrom (pos + (spaces.flatMap usingLine).length) true r)) := by
  induction spaces generalizing found before pos f with
  | nil => exact absurd rfl hne
  | cons space spaces ih =>
    have hspace := h space List.mem_cons_self
    have hsplit : (space :: spaces).flatMap usingLine ++ r
        = render (directiveChunks [0x20] space []) ++ newline :: (spaces.flatMap usingLine ++ r) := by
      rw [List.flatMap_cons, List.append_assoc, usingLine_append]
    have hlen : ((space :: spaces).flatMap usingLine).length
        = (render (directiveChunks [0x20] space [])).length + 1 + (spaces.flatMap usingLine).length := by
      have hlength := congrArg List.length hsplit
      simp only [List.length_append, List.length_cons] at hlength
      omega
    rw [hsplit] at hat ⊢
    obtain ⟨f', heq⟩ := Source.solid_render (stands_directive (g := [0x20]) (b := [])
      ⟨List.cons_ne_nil _ _, List.forall_mem_singleton.2 rfl⟩ hspace (List.forall_mem_nil _)
      (newline :: (spaces.flatMap usingLine ++ r))) pos f
    have hlead := leads_directive hspace hat.left found before
    obtain ⟨stop, hstop, hplace⟩ := place_directive [0x20] space [] pos
    have hmore : At src (pos + (render (directiveChunks [0x20] space [])).length + 1)
        (spaces.flatMap usingLine ++ r) := At.right (a := [newline]) hat.right
    rw [heq, Source.tokensFrom_newline, hlead, hlen, hplace, List.reverse_concat]
    cases spaces with
    | nil => exact ⟨stop, _, hstop, rfl⟩
    | cons next spaces =>
      obtain ⟨stop', before', hstop', hrest⟩ := ih (fun x hx => h x (List.mem_cons_of_mem _ hx))
        (List.cons_ne_nil _ _) { found with usings := found.usings ++ [space] } _ hmore true
      refine ⟨stop', before', hstop', ?_⟩
      rw [hrest, List.append_assoc, List.singleton_append]
      simp only [Nat.add_assoc]

/-! ## Directives that the search and the scanner see -/

/-- The text search finds a using directive for the namespace at an offset: only blanks precede it on its
line, and only blanks stand between its words. -/
def Directive (text space : Bytes) (n : Nat) : Prop :=
  leads isSpace (text.take n) = true ∧ BeginsUsing space (text.drop n)

/-- The text search and the scanner see the same directives for a namespace. -/
structure InSight (text space : Bytes) : Prop where
  read : ∀ n, Directive text space n →
    ∃ d ∈ headings text, d.isUsing = true ∧ d.keyword.start = n
  written : ∀ d ∈ headings text, d.isUsing = true → flat text.slice d.target = space →
    Directive text space d.keyword.start

theorem beginsUsing_iff {space s : Bytes} :
    BeginsUsing space s ↔ ("using" : Bytes) <+: s ∧ importsAt space s = true := by
  rw [importsAt_iff]
  constructor
  · rintro ⟨g, b, r, rfl, h⟩
    exact ⟨List.prefix_append _ _, [], _, rfl, by simp, g, b, r, rfl, h⟩
  · rintro ⟨⟨t, rfl⟩, a, t', heq, ha, ht'⟩
    -- the line begins with a letter
    obtain rfl : a = [] := by
      cases a with
      | nil => rfl
      | cons c a =>
        obtain rfl : 'u'.toUInt8 = c := (List.cons.inj heq).1
        exact absurd (ha 'u'.toUInt8 List.mem_cons_self) (by decide)
    rwa [heq]

instance (text space : Bytes) (n : Nat) : Decidable (Directive text space n) :=
  decidable_of_iff (leads isSpace (text.take n) = true ∧ ("using" : Bytes) <+: text.drop n ∧
    importsAt space (text.drop n) = true) (and_congr_right' beginsUsing_iff.symm)

theorem Directive.lt {text space : Bytes} {n : Nat} (h : Directive text space n) : n < text.length := by
  by_contra hn
  obtain ⟨g, b, r, heq, -⟩ := h.2
  rw [List.drop_of_length_le (by omega)] at heq
  simp at heq

instance (text space : Bytes) : Decidable (InSight text space) :=
  decidable_of_iff ((∀ n < text.length, Directive text space n →
      ∃ d ∈ headings text, d.isUsing = true ∧ d.keyword.start = n) ∧
    ∀ d ∈ headings text, d.isUsing = true → flat text.slice d.target = space →
      Directive text space d.keyword.start)
    ⟨fun h => ⟨fun n hn => h.1 n hn.lt hn, h.2⟩, fun h => ⟨fun n _ => h.read n, h.written⟩⟩

theorem imports_iff_directive {text space : Bytes} :
    imports text space = true ↔ ∃ n, Directive text space n := by
  rw [imports_iff]
  constructor
  · rintro ⟨u, t, rfl, hu, ht⟩
    exact ⟨u.length, by rwa [List.take_left], by rwa [List.drop_left]⟩
  · rintro ⟨n, hu, ht⟩
    exact ⟨_, _, (List.take_append_drop n text).symm, hu, ht⟩

/-- A heading that the text search takes for a directive has the target that it finds. -/
theorem flat_target {text space : Bytes} (hspace : IsDotted space) {d : Heading} (hd : d ∈ headings text)
    (hu : d.isUsing = true) (h : BeginsUsing space (text.drop d.keyword.start)) :
    flat text.slice d.target = space := by
  obtain ⟨hs, hs', heq⟩ := List.append_of_mem hd
  obtain ⟨P, Q, space', happ⟩ := Source.exists_approach heq (Source.isWord_keyword hd)
  obtain ⟨f, hdrop⟩ := Source.solid_drop happ.eq
  obtain ⟨g, b, r, stop, f', htext, hstop, hsolid⟩ := h.solid hspace d.keyword.start f
  rw [hdrop] at hsolid
  obtain ⟨-, hQ⟩ := List.cons.inj hsolid
  have htarget : d.target
      = place (d.keyword.start + 5 + g.length) (dottedChunks (dottedParts space)) := by
    have htake := (happ.directive hu).2.1
    rw [hQ] at htake
    rw [htake]
    exact (Source.takeWhile_append_cons _
      (fun x hx => by rw [not_semicolon_dotted hspace _ x hx]; rfl) (by rw [hstop]; rfl)).1
  have hat : At text d.keyword.start (("using" : Bytes) ++ (g ++ (space ++ (b ++ 0x3B :: r)))) :=
    ⟨[], by rw [List.append_nil, htext]⟩
  have hname : At text (d.keyword.start + 5 + g.length) space := hat.right.right.left
  rw [htarget, flat_dotted hspace hname]

/-- **What is imported is listed.** -/
theorem imports_iff_mem {text space : Bytes} {o : Outline} (hspace : IsDotted space)
    (h : InSight text space) (ho : outline text = .ok o) : imports text space = true ↔ space ∈ o.usings := by
  rw [imports_iff_directive, Source.outlineFrom_usings_eq ho]
  simp only [List.nil_append, Source.usingsOf, List.mem_map, List.mem_filter]
  constructor
  · rintro ⟨n, hn⟩
    obtain ⟨d, hd, hu, rfl⟩ := h.read n hn
    exact ⟨d, ⟨hd, hu⟩, flat_target hspace hd hu hn.2⟩
  · rintro ⟨d, ⟨hd, hu⟩, hflat⟩
    exact ⟨_, h.written d hd hu hflat⟩

/-! ## The place of the added directives -/

theorem isModifier_using {t : Token} (h : t.is "using" = true) : Source.isModifier t = false := by
  simp only [Token.is, Bool.and_eq_true, beq_iff_eq] at h
  rw [Source.isModifier, Source.isWordOf, Bool.and_eq_false_iff, h.2]
  exact Or.inr (by decide)

theorem isModifier_semicolon {t : Token} (h : t.is ";" = true) : Source.isModifier t = false :=
  Source.not_isModifier_of_stop (by rw [h, Bool.or_true])

theorem isApart_semicolon {t : Token} (h : t.is ";" = true) : Source.isApart t = true := by
  rw [Source.isApart, isModifier_semicolon h, Token.barsClass, Source.is_unique h (by decide),
    Source.is_unique h (by decide), Source.is_unique h (by decide)]
  rfl

/-- What stands in front of a using directive does not count behind it. -/
theorem outlineFrom_directive {cut cut' : Nat → Nat → Bytes} {k : Nat}
    (hcut : ∀ x y, cut' (x + k) (y + k) = cut x y) (trivia trivia' : List Token) (found : Outline)
    (before before' : List Token) {t : Token} {Q : List Token} (ht : t.is "using" = true)
    (hword : Q.head?.any (·.isWord) = true) :
    (outlineFrom cut' trivia' found before' ((t :: Q).map (Token.shift k))).map Outline.face
      = (outlineFrom cut trivia found before (t :: Q)).map Outline.face := by
  have hmod := isModifier_using ht
  -- the keyword bars what is in front of it
  have hfront : ∀ us : List Token, Source.SameFront (us ++ t :: before)
      ((us.map (Token.shift k)) ++ t.shift k :: before') := fun us => by
    have hone : Source.SameFront (t :: before) (t.shift k :: before') := by
      constructor
      · have hshift : Source.isModifier (t.shift k) = false := hmod
        rw [List.takeWhile_cons, List.takeWhile_cons, hmod, hshift]
        rfl
      · rfl
    exact hone.append k us
  have htarget : (Q.map (Token.shift k)).takeWhile (fun x => !x.is ";")
      = (Q.takeWhile fun x => !x.is ";").map (Token.shift k) := by
    rw [List.takeWhile_map, Source.not_is_shift]
  have hif : (t.is "using" && Q.head?.any (·.isWord)) = true := by rw [ht, hword]; rfl
  rw [List.map_cons, outlineFrom, Token.shift_is, Source.any_isWord_shift, if_pos hif]
  conv => rhs; rw [outlineFrom, if_pos hif]
  simp only [htarget, List.length_map, ← List.map_take, ← List.map_drop, ← List.map_reverse,
    Source.flat_shift hcut]
  exact Source.outlineFrom_shift hcut trivia trivia' _ (hfront _) _

theorem face_prepend (cut : Nat → Nat → Bytes) (trivia : List Token) (found : Outline) (us : List Bytes)
    (before ts : List Token) :
    (outlineFrom cut trivia { found with usings := us ++ found.usings } before ts).map Outline.face
      = ((outlineFrom cut trivia found before ts).map Outline.face).map
        fun o => { o with usings := us ++ o.usings } := by
  rw [Source.outlineFrom_prepend]
  cases outlineFrom cut trivia found before ts <;> rfl

theorem map_face_usings (x : Except Fault Outline) (us : List Bytes) :
    (x.map Outline.face).map (fun o => { o with usings := us ++ o.usings })
      = x.map fun o => { o.face with usings := us ++ o.usings } := by
  cases x <;> rfl

theorem usingLines_letter {spaces : List Bytes} (hne : spaces ≠ []) (s : Bytes) :
    ∃ r, spaces.flatMap usingLine ++ s = 'u'.toUInt8 :: r := by
  obtain ⟨space, spaces, rfl⟩ := List.exists_cons_of_ne_nil hne
  rw [List.flatMap_cons, usingLine_eq]
  exact ⟨_, rfl⟩

/-- The walk behind added directives, compared with that over the same tokens of another text. -/
theorem face_behind {cut cut' : Nat → Nat → Bytes} {trivia trivia' before before' ts ts' : List Token}
    (found : Outline) (hnone : found.usings = []) (spaces : List Bytes)
    (h : (outlineFrom cut' trivia' found before' ts').map Outline.face
      = (outlineFrom cut trivia found before ts).map Outline.face) :
    (outlineFrom cut' trivia' { found with usings := found.usings ++ spaces } before' ts').map Outline.face
      = (outlineFrom cut trivia found before ts).map fun o => { o.face with usings := spaces ++ o.usings } := by
  have hfound : ({ found with usings := found.usings ++ spaces } : Outline)
      = { found with usings := spaces ++ found.usings } := by rw [hnone, List.append_nil, List.nil_append]
  rw [hfound, face_prepend, h, map_face_usings]

/-- Directives that are added at the beginning of a text. -/
theorem outline_usingLines {s : Bytes} {spaces : List Bytes} (h : ∀ space ∈ spaces, IsDotted space)
    (hne : spaces ≠ []) : (outline (spaces.flatMap usingLine ++ s)).map Outline.face
      = (outline s).map fun o => { o.face with usings := spaces ++ o.usings } := by
  have hat : At (spaces.flatMap usingLine ++ s) 0 (spaces.flatMap usingLine ++ s) := List.prefix_refl _
  obtain ⟨stop, before', hstop, hwalk⟩ := outlineFrom_usingLines
    ((tokens (spaces.flatMap usingLine ++ s)).filter (·.isTrivia)) h hne {} [] hat true
  have hfront : Source.SameFront [] (stop :: before') :=
    Source.sameFront_of_apart rfl (isApart_semicolon hstop)
  have hwalk : outlineFrom _ _ {} [] (solid (tokens (spaces.flatMap usingLine ++ s))) = _ := hwalk
  rw [Source.outline_eq, Source.outline_eq, hwalk, Source.tokensFrom_shift, Source.solid_shift]
  exact face_behind {} rfl spaces (Source.outlineFrom_shift (Source.slice_append_right _ s) _ _ {} hfront _)

/-- **Added directives stand in front of the others** in the outline, which is the same otherwise. -/
theorem outline_insert {pre s : Bytes} {spaces : List Bytes} (h : ∀ space ∈ spaces, IsDotted space)
    (hne : spaces ≠ []) (hspot : ∃ d, (headings (pre ++ s)).find? (·.isUsing) = some d ∧
      d.keyword.start = pre.length) :
    (outline (pre ++ (spaces.flatMap usingLine ++ s))).map Outline.face
      = (outline (pre ++ s)).map fun o => { o.face with usings := spaces ++ o.usings } := by
  obtain ⟨d, hfind, hstart⟩ := hspot
  obtain ⟨hu, hs, hs', heq, hnone⟩ := List.find?_eq_some_iff_append.1 hfind
  have hd : d ∈ headings (pre ++ s) := by rw [heq]; simp
  obtain ⟨P, Q, space', happ⟩ := Source.exists_approach heq (Source.isWord_keyword hd)
  have hmem : d.keyword ∈ tokens (pre ++ s) := (Source.mem_solid.1 (Source.keyword_mem hd).1).1
  -- the directive is where the text is cut
  obtain ⟨a, c, b, r, -, htext, hkey, hpos, -, -⟩ := Source.exists_lexeme_of_mem hmem
  obtain ⟨rfl, rfl⟩ := List.append_inj htext (by omega)
  have hletter : isLetterByte c = true := by
    have hu' := hu
    simp only [Heading.isUsing, Token.is, Bool.and_eq_true, beq_iff_eq] at hu'
    rw [← (List.cons.inj (hkey.symm.trans hu'.2)).1.symm]
    decide
  obtain ⟨-, hP, -, f, hfronts⟩ := Source.fronts_of_solid hletter happ.eq rfl hstart
  have hbehind := hfronts c (b ++ r) hletter
  rw [happ.eq, List.append_cancel_left_eq, Source.solid_letter hletter] at hbehind
  obtain ⟨x, hx⟩ := usingLines_letter hne (c :: (b ++ r))
  have hfront := hfronts 'u'.toUInt8 x (by decide)
  rw [← hx] at hfront
  -- the walk comes to the place in both texts
  have hlead : ∀ s' : Bytes, Source.Leads (pre ++ s').slice {} [] P ⟨[], space', none⟩ := fun s' => by
    have hlead := happ.leads pre.length hP _ (Source.cutsAlike_append pre (c :: (b ++ r)) s') [] rfl {} rfl
    have husings : Source.usingsOf (pre ++ c :: (b ++ r)).slice hs = [] := by
      rw [Source.usingsOf, List.filter_eq_nil_iff.2 fun x hx => by simpa using hnone x hx]
      rfl
    rwa [husings] at hlead
  have hat : At (pre ++ (spaces.flatMap usingLine ++ c :: (b ++ r))) pre.length
      (spaces.flatMap usingLine ++ c :: (b ++ r)) :=
    ⟨[], by rw [List.append_nil, List.drop_left]⟩
  obtain ⟨stop, before', -, hwalk⟩ := outlineFrom_usingLines
    ((tokens (pre ++ (spaces.flatMap usingLine ++ c :: (b ++ r)))).filter (·.isTrivia)) h hne
    ⟨[], space', none⟩ (P.reverse ++ []) hat f
  obtain ⟨K, R, hK, hkeyK, rfl⟩ := List.map_eq_cons_iff.1 hbehind.symm
  have hwordR : R.head?.any (·.isWord) = true := by
    rw [← Source.any_isWord_shift]
    exact (happ.directive hu).1
  have huK : K.is "using" = true := by
    rw [← Token.shift_is pre.length, hkeyK]
    exact hu
  have hpre := Source.slice_append_right pre (c :: (b ++ r))
  have hlines : ∀ x y, (pre ++ (spaces.flatMap usingLine ++ c :: (b ++ r))).slice
      (x + (pre.length + (spaces.flatMap usingLine).length))
      (y + (pre.length + (spaces.flatMap usingLine).length)) = Bytes.slice (c :: (b ++ r)) x y := fun x y => by
    rw [← List.append_assoc, ← List.length_append]
    exact Source.slice_append_right _ _ x y
  rw [Source.outline_eq, Source.outline_eq, hfront, hlead, hwalk, Source.solid_letter hletter, hK, happ.eq,
    hlead, ← hkeyK, ← List.map_cons]
  refine face_behind _ rfl spaces ?_
  rw [outlineFrom_directive hlines [] _ _ [] _ huK hwordR, outlineFrom_directive hpre [] _ _ [] _ huK hwordR]

/-- What the search does not find imported is what the outline does not list. -/
theorem filter_imports {text : Bytes} {spaces : List Bytes} {o : Outline} (ho : outline text = .ok o)
    (h : ∀ space ∈ spaces, IsDotted space) (hsight : ∀ space ∈ spaces, InSight text space) :
    (spaces.filter fun space => !imports text space) = spaces.filter fun space => !o.usings.contains space := by
  refine List.filter_congr fun space hspace => congrArg _ ?_
  rw [Bool.eq_iff_iff, List.contains_iff_mem]
  exact imports_iff_mem (h space hspace) (hsight space hspace) ho

/-- **Adding using directives adds them and nothing else.** The search and the scanner see the same
directives for the namespaces, and where directives are added in front of a first `using `, that is the
keyword of the first directive. -/
theorem outline_addUsings {text : Bytes} {spaces : List Bytes} (h : ∀ space ∈ spaces, IsDotted space)
    (hsight : ∀ space ∈ spaces, InSight text space)
    (hspot : addUsings spaces text ≠ text → ∀ i, Bytes.indexOf? "using " text = some i →
      ∃ d, (headings text).find? (·.isUsing) = some d ∧ d.keyword.start = i) :
    (outline (addUsings spaces text)).map Outline.face = (outline text).map fun o =>
      { o.face with usings := spaces.filter (fun space => !o.usings.contains space) ++ o.usings } := by
  by_cases hadded : (spaces.filter fun space => !imports text space) = []
  · -- nothing is added
    have hall : ∀ space ∈ spaces, imports text space = true := fun space hspace => by
      simpa using List.filter_eq_nil_iff.1 hadded space hspace
    rw [addUsings_of_imported hall]
    cases ho : outline text with
    | error e => rfl
    | ok o =>
      rw [filter_imports ho h hsight] at hadded
      simp only [Except.map, hadded, List.nil_append]
      rfl
  · have hdotted : ∀ space ∈ spaces.filter (fun space => !imports text space), IsDotted space :=
      fun space hspace => h space (List.mem_filter.1 hspace).1
    have hinsert : (outline (addUsings spaces text)).map Outline.face = (outline text).map fun o =>
        { o.face with usings := (spaces.filter fun space => !imports text space) ++ o.usings } := by
      cases hi : Bytes.indexOf? "using " text with
      | none =>
        have heq : addUsings spaces text
            = (spaces.filter fun space => !imports text space).flatMap usingLine ++ text := by
          unfold addUsings
          rw [hi]
          rfl
        rw [heq, outline_usingLines hdotted hadded]
      | some i =>
        have heq : addUsings spaces text = text.take i
            ++ ((spaces.filter fun space => !imports text space).flatMap usingLine ++ text.drop i) := by
          unfold addUsings
          rw [hi, Option.getD_some, List.append_assoc]
        have hlen : (text.take i).length = i := List.length_take_of_le (indexOf?_found hi).1
        have hne : addUsings spaces text ≠ text := fun hsame => by
          have hlength := congrArg List.length (heq.symm.trans hsame)
          obtain ⟨r, hr⟩ := usingLines_letter hadded []
          rw [List.append_nil] at hr
          rw [hr] at hlength
          simp only [List.length_append, List.length_cons, List.length_drop, hlen] at hlength
          have := (indexOf?_found hi).1
          omega
        have hinsert := @outline_insert (text.take i) (text.drop i) _ hdotted hadded
        rw [List.take_append_drop, hlen, ← heq] at hinsert
        exact hinsert (hspot hne i hi)
    rw [hinsert]
    cases ho : outline text with
    | error e => rfl
    | ok o =>
      rw [filter_imports ho h hsight]
      rfl

def importing : Bytes := "// Uses\nusing A;\nclass C\x7b\x7d"

theorem outline_addUsings_importing : addUsings ["A", "B"] importing ≠ importing ∧
    (outline (addUsings ["A", "B"] importing)).map Outline.face
      = .ok ⟨["B", "A"], [], some { name := "C", modifiers := [], start := 0, keywordStart := 0 }⟩ := by
  have hadds : addUsings ["A", "B"] importing ≠ importing := by decide
  have hfirst : Bytes.indexOf? "using " importing = some 8 := by decide
  have hspot : ∃ d, (headings importing).find? (·.isUsing) = some d ∧ d.keyword.start = 8 :=
    ⟨⟨none, ⟨.word, "using", 8⟩, [⟨.word, "A", 14⟩]⟩, by decide +kernel, rfl⟩
  have hface := @outline_addUsings importing ["A", "B"] (by decide +kernel) (by decide +kernel)
    fun _ i hi => by
      rw [hfirst, Option.some.injEq] at hi
      rwa [← hi]
  refine ⟨hadds, hface.trans ?_⟩
  decide +kernel

/-- A comment with the text that a directive begins with. -/
def remarked : Bytes := "// using X\nusing A;\nclass C\x7b\x7d"

/-- Directives may be added inside a comment, and end it. -/
theorem outline_addUsings_remarked :
    (outline remarked).map (·.usings) = .ok ["A"] ∧
    (outline (addUsings ["N"] remarked)).map (·.usings) ≠ .ok ["N", "A"] := by
  decide +kernel

end Flowsmith.Activity
