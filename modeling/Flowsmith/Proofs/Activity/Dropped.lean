import Flowsmith.Migration.Workflow
import Flowsmith.Proofs.Activity.Added
import Flowsmith.Proofs.Source.LineStart
import Flowsmith.Proofs.Source.Safety

/-!
# Dropped using directives

The text search drops lines, the migration of workflows filters the outline. When the lines that the
search finds are the directives for workflow namespaces that the scanner reads, and each has a line of its
own, the outline of what is left is the filtered one.

* `OnLine` : a directive on its own line; `OnLine.size`, `OnLine.exists_taken` : what the search takes of
  it, and what the scanner reads in it;
* `Legacy`, `OnLines` : the directives that go, and that the search and the scanner agree on them;
* `Passage` : the walk from the beginning of a line over the first directive that goes;
  `OnLines.exists_passage`, `Passage.dropped`, `Passage.face` : what it leaves of the text and finds in it;
* `outlineFrom_dropped` : the walk over the rest of the text without the directives that go;
* `outline_dropWorkflowUsings` : the outline of what is left.
-/

namespace Flowsmith.Activity

open Bytes (newline eraseMatches)
open Text (isSpace leads lineBreaks? closedLine?)
open Source (Token Heading Outline isApart IsDotted SameFront At render place solid tokens tokensFrom headings
  headingsFrom outline outlineFrom flat usingsOf)
open Workflow (keptUsings legacyNamespace)

/-! ## What the search takes -/

/-- The search for the end of a line passes what holds no mark. -/
theorem closedLine?_pass {mark : UInt8} {a s : Bytes} {k : Nat} (hmark : mark ≠ newline)
    (ha : ∀ c ∈ a, c ≠ newline ∧ c ≠ mark) (hs : lineBreaks? s = some k) :
    closedLine? mark (a ++ mark :: s) = some (a.length + (1 + k)) := by
  induction a with
  | nil =>
    rw [List.nil_append, closedLine?, if_neg hmark, if_pos rfl, hs, List.length_nil, Nat.zero_add,
      Nat.add_comm]
  | cons c a ih =>
    obtain ⟨⟨hline, hc⟩, ha⟩ := List.forall_mem_cons.1 ha
    rw [List.cons_append, closedLine?, if_neg hline, if_neg hc, ih ha, Option.map_some, List.length_cons]
    simp only [Nat.add_right_comm]

/-- A directive with one space in front of its name, and what follows it. -/
theorem directive_append (space b r : Bytes) : render (directiveChunks [0x20] space b) ++ r
    = ("using " : Bytes) ++ (space ++ (b ++ 0x3B :: r)) := by
  have hword : ("using " : Bytes) = ("using" : Bytes) ++ [0x20] := rfl
  rw [render_directive, hword]
  simp only [List.append_assoc, List.cons_append, List.nil_append]

/-- A using directive for the namespace has a line of its own at an offset: there are only blanks on the
line besides it. -/
def OnLine (text space : Bytes) (n : Nat) : Prop :=
  leads isSpace (text.take n) = true ∧ ∃ b w r,
    text.drop n = ("using " : Bytes) ++ (space ++ (b ++ 0x3B :: (w ++ newline :: r))) ∧
      ∀ c ∈ b ++ w, isSpace c = true ∧ c ≠ newline

/-- **What the search takes** of a directive on its own line: all of it and the blank lines behind it. -/
theorem OnLine.size {text space : Bytes} {n : Nat} (h : OnLine text space n) (hspace : IsDotted space)
    (hlegacy : legacyNamespace <+: space) :
    ∃ b m v, text.drop n = render (directiveChunks [0x20] space b) ++ (m ++ newline :: v) ∧
      (∀ c ∈ b, isSpace c = true) ∧ (∀ c ∈ m, isSpace c = true) ∧
      workflowUsingLine? (text.drop n)
        = some ((render (directiveChunks [0x20] space b)).length + (m.length + 1)) := by
  obtain ⟨-, b, w, r, htext, hblank⟩ := h
  obtain ⟨k, hk⟩ := Option.isSome_iff_exists.1 (lineBreaks?_isSome.2
    ⟨w, r, rfl, fun c hc => hblank c (List.mem_append_right b hc)⟩)
  obtain ⟨m, v, hw, rfl, hm⟩ := lineBreaks?_ends hk
  obtain ⟨rest, rfl⟩ := hlegacy
  have hwhole : text.drop n
    = render (directiveChunks [0x20] (legacyNamespace ++ rest) b) ++ (m ++ newline :: v) := by
    rw [htext, hw, directive_append]
  refine ⟨b, m, v, hwhole, fun c hc => (hblank c (List.mem_append_left w hc)).1, hm, ?_⟩
  -- the head is what the search looks for, and the first semicolon ends the directive
  have hhead : WorkflowHead (("using " : Bytes) ++ legacyNamespace) := ⟨".", rfl, rfl⟩
  have hplain : ∀ c ∈ rest ++ b, c ≠ newline ∧ c ≠ ';'.toUInt8 := by
    intro c hc
    rcases List.mem_append.1 hc with hc | hc
    · have hforeign := not_isForeign_of_mem hspace (List.mem_append_right legacyNamespace hc)
      constructor <;> rintro rfl <;> revert hforeign <;> decide
    · have hspace := hblank c (List.mem_append_left w hc)
      refine ⟨hspace.2, ?_⟩
      rintro rfl
      exact absurd hspace.1 (by decide)
  have hclosed := closedLine?_pass (by decide) hplain hk
  have hparts : text.drop n = (("using " : Bytes) ++ legacyNamespace)
      ++ ((rest ++ b) ++ ';'.toUInt8 :: (w ++ newline :: r)) := by
    rw [htext]
    simp only [List.append_assoc]
    rfl
  have hlen := congrArg List.length (directive_append (legacyNamespace ++ rest) b [])
  simp only [List.append_nil, List.length_append, List.length_singleton] at hlen
  unfold workflowUsingLine?
  rw [hparts, workflowUsingHead?_eq_some.2 ⟨_, _, hhead, rfl, rfl⟩]
  simp only [bind, Option.bind_some, List.drop_left, hclosed, pure]
  rw [hlen, List.length_append, List.length_append]
  congr 1
  omega

theorem eraseMatches_append {f : Bytes → Option Nat} {g s : Bytes}
    (h : ∀ u v, g = u ++ v → v ≠ [] → f (v ++ s) = none) : eraseMatches f (g ++ s) = g ++ eraseMatches f s := by
  induction g with
  | nil => rfl
  | cons c g ih =>
    have hnone : f (c :: (g ++ s)) = none := h [] (c :: g) rfl (List.cons_ne_nil c g)
    rw [List.cons_append, Text.eraseMatches_cons hnone, ih fun u v heq => h (c :: u) v (by rw [heq]; rfl)]
    rfl

theorem eraseMatches_of_some {f : Bytes → Option Nat} {a s : Bytes} (ha : a ≠ [])
    (h : f (a ++ s) = some a.length) : eraseMatches f (a ++ s) = eraseMatches f s := by
  obtain ⟨c, a, rfl⟩ := List.exists_cons_of_ne_nil ha
  rw [List.cons_append] at h ⊢
  rw [eraseMatches, h]
  simp only [List.length_cons, List.drop_left]

/-- The search takes `l` of a directive at an offset; the scanner reads the tokens `us` and a semicolon in
it, and behind it what it reads from `v` on. -/
structure Taken (text space : Bytes) (n : Nat) (l v : Bytes) (us : List Token) (stop : Token) : Prop where
  eq : text.drop n = l ++ v
  head : ∃ y, l = 'u'.toUInt8 :: y
  size : workflowUsingLine? (l ++ v) = some l.length
  ends : stop.is ";" = true
  name : ∀ t ∈ us, t.is ";" = false
  tokens : solid (tokensFrom n true (l ++ v))
    = ((⟨.word, "using", n⟩ :: us) ++ [stop]) ++ solid (tokensFrom (n + l.length) true v)
  leads : ∀ (found : Outline) (before : List Token),
    Source.Leads text.slice found before ((⟨.word, "using", n⟩ :: us) ++ [stop])
      { found with usings := found.usings ++ [space] }

/-- **A directive on its own line** is taken as a whole. -/
theorem OnLine.exists_taken {text space : Bytes} {n : Nat} (h : OnLine text space n) (hspace : IsDotted space)
    (hlegacy : legacyNamespace <+: space) : ∃ l v us stop, Taken text space n l v us stop := by
  obtain ⟨b, m, v, hdrop, hb, hm, hsize⟩ := h.size hspace hlegacy
  have hwhole : text.drop n = render (directiveChunks [0x20] space b) ++ (m ++ [newline]) ++ v := by
    rw [hdrop]
    simp
  have hlen : (render (directiveChunks [0x20] space b) ++ (m ++ [newline])).length
      = (render (directiveChunks [0x20] space b)).length + (m.length + 1) := by simp
  obtain ⟨f, hrender⟩ := Source.solid_render (stands_directive (g := [0x20])
    ⟨List.cons_ne_nil _ _, List.forall_mem_singleton.2 rfl⟩ hspace hb (m ++ newline :: v)) n true
  obtain ⟨stop, hstop, hplace⟩ := place_directive [0x20] space b n
  refine ⟨_, v, place (n + 5 + ([0x20] : Bytes).length) (dottedChunks (Source.dottedParts space)), stop,
    hwhole, ?_, ?_, hstop, not_semicolon_dotted hspace _, ?_, ?_⟩
  · rw [directive_append]
    exact ⟨_, rfl⟩
  · rw [← hwhole, hlen, hsize]
  · rw [← hwhole, hdrop, hrender,
      Source.tokensFrom_lineEnd (fun c hc => Source.isBlankByte_of_isSpace (hm c hc)), hplace, hlen,
      Nat.add_assoc n (render _).length]
  · have hat : At text n (render (directiveChunks [0x20] space b)) := ⟨_, hdrop.symm⟩
    rw [← hplace]
    exact leads_directive hspace hat

/-! ## Directives that go -/

/-- A using directive for a workflow namespace. -/
def Legacy (text : Bytes) (d : Heading) : Prop :=
  d.isUsing = true ∧ legacyNamespace.isPrefixOf (flat text.slice d.target) = true

instance (text : Bytes) (d : Heading) : Decidable (Legacy text d) := by
  unfold Legacy
  infer_instance

/-- The lines that the search finds are the directives that go, each on its own line, and nothing in front
of one counts for a class behind it. -/
structure OnLines (text : Bytes) : Prop where
  found : ∀ n, workflowUsingLine? (text.drop n) ≠ none →
    ∃ d ∈ headings text, Legacy text d ∧ d.keyword.start = n
  written : ∀ d ∈ headings text, Legacy text d →
    IsDotted (flat text.slice d.target) ∧ OnLine text (flat text.slice d.target) d.keyword.start
  front : ∀ d ∈ headings text, Legacy text d → d.front.all isApart = true

theorem keptUsings_append (us us' : List Bytes) :
    keptUsings (us ++ us') = keptUsings us ++ keptUsings us' := List.filter_append ..

theorem keptUsings_usingsOf {text : Bytes} {hs : List Heading} (h : ∀ d ∈ hs, ¬ Legacy text d) :
    keptUsings (usingsOf text.slice hs) = usingsOf text.slice hs := by
  refine List.filter_eq_self.2 fun u hu => ?_
  obtain ⟨d, hd, rfl⟩ := List.mem_map.1 hu
  obtain ⟨hd, husing⟩ := List.mem_filter.1 hd
  have hlegacy := h d hd
  rw [Legacy, not_and, Bool.not_eq_true] at hlegacy
  rw [hlegacy husing]
  rfl

theorem face_behind_text (a r : Bytes) (trivia trivia' : List Token) (found : Outline)
    {before before' : List Token} (h : SameFront before before') :
    (outlineFrom r.slice trivia' found before' (solid (tokens r))).map Outline.face
      = (outlineFrom (a ++ r).slice trivia found before (solid (tokensFrom a.length true r))).map
        Outline.face := by
  have hshift := Source.tokensFrom_shift r 0 a.length true
  rw [Nat.zero_add] at hshift
  rw [hshift, Source.solid_shift]
  exact (Source.outlineFrom_shift (Source.slice_append_right a r) trivia' trivia found h.symm _).symm

/-! ## The walk over a directive that goes -/

/-- From an offset on, the walk passes the tokens `P` of the text `u`, and then the directive `d`, of which
the search takes `l`; behind it are `v` and the headings `hs'`. -/
structure Passage (text : Bytes) (x : Nat) (space : Bytes) (before : List Token) (hs : List Heading)
    (d : Heading) (hs' : List Heading) (u l v : Bytes) (P : List Token) (space' : Bytes)
    (behind : List Token) : Prop where
  eq : text.drop x = u ++ (l ++ v)
  start : d.keyword.start = x + u.length
  pos : l ≠ []
  size : workflowUsingLine? (l ++ v) = some l.length
  front : d.front = (P.reverse ++ before).head?
  apart : behind.head?.all isApart = true
  /-- What is found over `u`, whatever follows it. -/
  lead : ∀ (r : Bytes) (trivia before' : List Token), Source.SameBar before before' →
    outlineFrom (Bytes.slice (text.take (x + u.length) ++ r)) trivia ⟨[], space, none⟩ before'
        (solid (tokensFrom x true (u ++ r)))
      = outlineFrom (Bytes.slice (text.take (x + u.length) ++ r)) trivia ⟨usingsOf text.slice hs, space', none⟩
        (P.reverse ++ before') (solid (tokensFrom (x + u.length) true r))
  /-- What is found over the directive. -/
  read : ∀ trivia : List Token,
    outlineFrom text.slice trivia ⟨[], space, none⟩ before (solid (tokensFrom x true (text.drop x)))
      = outlineFrom text.slice trivia
        ⟨usingsOf text.slice hs ++ [flat text.slice d.target], space', none⟩ behind
        (solid (tokensFrom (x + u.length + l.length) true v))
  rest : hs' = headingsFrom text.slice space' behind (solid (tokensFrom (x + u.length + l.length) true v))

/-- **The walk comes to a directive that goes** and passes it. -/
theorem OnLines.exists_passage {text space : Bytes} {x : Nat} {before : List Token} {hs hs' : List Heading}
    {d : Heading} (h : OnLines text) (hx : x ≤ text.length)
    (heq : headingsFrom text.slice space before (solid (tokensFrom x true (text.drop x))) = hs ++ d :: hs')
    (hd : d ∈ headings text) (hlegacy : Legacy text d) :
    ∃ u l v P space' behind, Passage text x space before hs d hs' u l v P space' behind := by
  obtain ⟨P, Q, space', happ⟩ := Source.exists_approach heq (Source.isWord_keyword hd)
  obtain ⟨hdotted, hline⟩ := h.written d hd hlegacy
  have hmem : d.keyword ∈ tokensFrom x true (text.drop x) := (Source.mem_solid.1 (by rw [happ.eq]; simp)).1
  have hle : x ≤ d.keyword.start := (Source.le_start_of_mem hmem).1
  obtain ⟨n, hn⟩ : ∃ n, d.keyword.start = x + n := ⟨d.keyword.start - x, by omega⟩
  rw [hn] at hline
  obtain ⟨l, v, us, stop, htaken⟩ := hline.exists_taken hdotted (List.isPrefixOf_iff_prefix.1 hlegacy.2)
  obtain ⟨y, hy⟩ := htaken.head
  have hlong : x + n < text.length := by
    by_contra hlt
    have hnil := htaken.eq
    rw [List.drop_of_length_le (by omega), hy] at hnil
    cases hnil
  -- the text in front of the directive
  obtain ⟨u, hu, hulen⟩ : ∃ u, text.drop x = u ++ text.drop (x + n) ∧ u.length = n :=
    ⟨(text.drop x).take n, by rw [← List.drop_drop, List.take_append_drop],
      List.length_take_of_le (by rw [List.length_drop]; omega)⟩
  have htake : text.take (x + n) = text.take x ++ u := by
    rw [List.take_add, hu, ← hulen, List.take_left]
  have hlead : leads isSpace u = true := Text.leads_right (htake ▸ hline.1)
  subst hulen
  have hletter : l ++ v = 'u'.toUInt8 :: (y ++ v) := by rw [hy]; rfl
  have hsolid := happ.eq
  rw [hu, htaken.eq, hletter] at hsolid
  obtain ⟨hP, hback, hmore⟩ := Source.fronts_of_line (by decide) hlead hsolid hn
  have htokens := htaken.tokens
  have hread := htaken.leads
  rw [← hletter, htokens, Source.group_append] at hback
  obtain ⟨hkey, rfl⟩ := List.cons.inj hback
  rw [hkey] at htokens hread
  refine ⟨u, l, v, P, space', ((d.keyword :: us) ++ [stop]).reverse ++ (P.reverse ++ before), ?_⟩
  exact {
    eq := by rw [hu, htaken.eq]
    start := hn
    pos := by rw [hy]; exact List.cons_ne_nil _ _
    size := htaken.size
    front := happ.front
    apart := by
      rw [List.reverse_concat]
      exact isApart_semicolon htaken.ends
    lead := fun r trivia before' hbar => by
      have hcut := Source.cutsAlike_append (text.take (x + u.length)) (text.drop (x + u.length)) r
      rw [List.take_append_drop, List.length_take_of_le (by omega)] at hcut
      rw [hmore]
      exact happ.leads _ hP _ hcut before' hbar ⟨[], space, none⟩ rfl trivia _
    read := fun trivia => by
      rw [hu, htaken.eq, hmore, htokens,
        happ.leads _ hP _ (fun _ _ _ => rfl) before rfl ⟨[], space, none⟩ rfl, hread]
      rfl
    rest := by
      obtain ⟨-, htarget, hrest⟩ := happ.directive hlegacy.1
      rw [(Source.takeWhile_append_cons _ (fun t ht => by rw [htaken.name t ht]; rfl)
        (by rw [htaken.ends]; rfl)).1] at htarget
      have hlen : (us ++ [stop]).length = us.length + 1 := by simp
      rw [htarget, List.append_cons us, List.take_left' hlen, List.drop_left' hlen,
        Source.group_reverse] at hrest
      exact hrest }

/-! ## The outline of what is left -/

def keeping (o : Outline) : Outline := { o.face with usings := keptUsings o.usings }

/-- The walk from the beginning of a line on when no directive goes. -/
theorem outlineFrom_kept {text space : Bytes} {x : Nat} {before before' : List Token} (h : OnLines text)
    (hx : x ≤ text.length) (hall : ∀ d ∈ headings text, Legacy text d → d.keyword.start < x)
    (hnone : ∀ d ∈ headingsFrom text.slice space before (solid (tokensFrom x true (text.drop x))),
      ¬ Legacy text d)
    (hfront : SameFront before before') (trivia trivia' : List Token) :
    (outlineFrom (Bytes.slice (dropWorkflowUsings (text.drop x))) trivia' ⟨[], space, none⟩ before'
        (solid (tokens (dropWorkflowUsings (text.drop x))))).map Outline.face
      = (outlineFrom text.slice trivia ⟨[], space, none⟩ before
        (solid (tokensFrom x true (text.drop x)))).map keeping := by
  -- the search finds nothing either
  have hclear : Text.Clear workflowUsingLine? (text.drop x) := by
    intro u v heq
    by_contra hsome
    have hv : v = text.drop (x + u.length) := by rw [← List.drop_drop, heq, List.drop_left]
    obtain ⟨d, hd, hlegacy, hstart⟩ := h.found _ (hv ▸ hsome)
    have := hall d hd hlegacy
    omega
  have hbehind := face_behind_text (text.take x) (text.drop x) trivia trivia' ⟨[], space, none⟩ hfront
  rw [List.take_append_drop, List.length_take_of_le hx] at hbehind
  rw [dropWorkflowUsings, Text.eraseMatches_of_clear hclear, hbehind]
  cases ho : outlineFrom text.slice trivia ⟨[], space, none⟩ before
      (solid (tokensFrom x true (text.drop x))) with
  | error e => rfl
  | ok o =>
    have husings := Source.outlineFrom_usings_eq ho
    rw [List.nil_append] at husings
    rw [Except.map, Except.map, keeping, husings, keptUsings_usingsOf hnone, ← husings]
    rfl

/-- The headings behind a directive begin behind what the search takes of it. -/
theorem Passage.lt_of_mem {text space space' : Bytes} {x : Nat} {before behind P : List Token}
    {hs hs' : List Heading} {d d' : Heading} {u l v : Bytes}
    (h : Passage text x space before hs d hs' u l v P space' behind) (hd' : d' ∈ hs') :
    x + u.length + l.length ≤ d'.keyword.start := by
  rw [h.rest] at hd'
  exact (Source.le_start_of_mem (Source.mem_solid.1 (Source.keyword_mem hd').1).1).1

/-- In front of a directive that goes, nothing is erased when none of the headings there goes. -/
theorem Passage.dropped {text space space' : Bytes} {x : Nat} {before behind P : List Token}
    {hs hs' : List Heading} {d : Heading} {u l v : Bytes}
    (hp : Passage text x space before hs d hs' u l v P space' behind) (h : OnLines text)
    (hall : ∀ d' ∈ headings text, Legacy text d' → x ≤ d'.keyword.start → d' ∈ hs ++ d :: hs')
    (hnone : ∀ d' ∈ hs, ¬ Legacy text d') :
    dropWorkflowUsings (text.drop x) = u ++ dropWorkflowUsings v := by
  rw [dropWorkflowUsings, hp.eq, eraseMatches_append, eraseMatches_of_some hp.pos hp.size]
  · rfl
  · rintro a b rfl hb
    by_contra hsome
    have hdrop : text.drop (x + a.length) = b ++ (l ++ v) := by
      rw [← List.drop_drop, hp.eq, List.append_assoc, List.drop_left]
    obtain ⟨d', hd', hlegacy, hstart⟩ := h.found _ (hdrop ▸ hsome)
    have hlen := List.length_pos_iff.2 hb
    have hn := hp.start
    rw [List.length_append] at hn
    rcases List.mem_append.1 (hall d' hd' hlegacy (by omega)) with hmem | hmem
    · exact hnone d' hmem hlegacy
    · rcases List.mem_cons.1 hmem with rfl | hmem
      · omega
      · have hle := hp.lt_of_mem hmem
        rw [List.length_append] at hle
        omega

theorem outlineFrom_found (cut : Nat → Nat → Bytes) (trivia : List Token) (us : List Bytes) (space : Bytes)
    (before ts : List Token) : outlineFrom cut trivia ⟨us, space, none⟩ before ts
      = (outlineFrom cut trivia ⟨[], space, none⟩ before ts).map fun o => { o with usings := us ++ o.usings } := by
  have h := Source.outlineFrom_prepend cut trivia ⟨[], space, none⟩ us before ts
  simp only [List.append_nil] at h
  exact h

theorem face_found (cut : Nat → Nat → Bytes) (trivia : List Token) (us : List Bytes) (space : Bytes)
    (before ts : List Token) : (outlineFrom cut trivia ⟨us, space, none⟩ before ts).map Outline.face
      = ((outlineFrom cut trivia ⟨[], space, none⟩ before ts).map Outline.face).map
        fun o => { o with usings := us ++ o.usings } := by
  rw [outlineFrom_found]
  cases outlineFrom cut trivia ⟨[], space, none⟩ before ts <;> rfl

/-- What is kept behind directives, the last of which goes. -/
theorem keeping_prepend {us : List Bytes} {space : Bytes} (hus : keptUsings us = us)
    (hspace : legacyNamespace.isPrefixOf space = true) (o : Outline) :
    keeping { o with usings := (us ++ [space]) ++ o.usings }
      = { keeping o with usings := us ++ (keeping o).usings } := by
  have hnone : keptUsings [space] = [] := by
    rw [keptUsings, List.filter_cons_of_neg (by simp [hspace]), List.filter_nil]
  rw [keeping, keptUsings_append, keptUsings_append, hus, hnone, List.append_nil]
  rfl

/-- The walk passes a directive that goes, and the walk over what is left passes what is in front of it. -/
theorem Passage.face {text space space' : Bytes} {x : Nat} {before before' behind P : List Token}
    {hs hs' : List Heading} {d : Heading} {u l v r : Bytes}
    (hp : Passage text x space before hs d hs' u l v P space' behind) (h : OnLines text)
    (hx : x + u.length ≤ text.length) (hd : d ∈ headings text) (hlegacy : Legacy text d)
    (hnone : ∀ d' ∈ hs, ¬ Legacy text d') (hfront : SameFront before before') (trivia trivia' : List Token)
    (hrest : ∀ before'', SameFront behind before'' →
      (outlineFrom r.slice trivia' ⟨[], space', none⟩ before'' (solid (tokens r))).map Outline.face
        = (outlineFrom text.slice trivia ⟨[], space', none⟩ behind
          (solid (tokensFrom (x + u.length + l.length) true v))).map keeping) :
    (outlineFrom (Bytes.slice (u ++ r)) trivia' ⟨[], space, none⟩ before' (solid (tokens (u ++ r)))).map
        Outline.face
      = (outlineFrom text.slice trivia ⟨[], space, none⟩ before
        (solid (tokensFrom x true (text.drop x)))).map keeping := by
  -- what is left is read as behind the text in front of it
  have htake : text.take x ++ (u ++ r) = text.take (x + u.length) ++ r := by
    rw [List.take_add, hp.eq, List.take_left, List.append_assoc]
  have hbehind := face_behind_text (text.take x) (u ++ r) trivia' trivia' ⟨[], space, none⟩
    (SameFront.refl before')
  have hafter := face_behind_text (text.take (x + u.length)) r trivia' trivia'
    ⟨usingsOf text.slice hs, space', none⟩ (SameFront.refl (P.reverse ++ before'))
  rw [htake, List.length_take_of_le (by omega)] at hbehind
  rw [List.length_take_of_le hx] at hafter
  rw [hbehind, hp.lead r trivia' before' hfront.bars, ← hafter, face_found, hrest, hp.read,
    outlineFrom_found _ _ (_ ++ [_])]
  · cases outlineFrom text.slice trivia ⟨[], space', none⟩ behind
        (solid (tokensFrom (x + u.length + l.length) true v)) with
    | error e => rfl
    | ok o => exact congrArg Except.ok (keeping_prepend (keptUsings_usingsOf hnone) hlegacy.2 o).symm
  · -- neither the directive nor the token in front of it counts for a class behind
    have hlast : (P.reverse ++ before).head?.all isApart = true := hp.front ▸ h.front d hd hlegacy
    exact (Source.sameFront_of_apart hp.apart hlast).trans (hfront.left P.reverse)

/-- **The walk over the text without the directives that go**, from the beginning of a line on. -/
theorem outlineFrom_dropped {text : Bytes} (h : OnLines text) (hs : List Heading) :
    ∀ {x : Nat} {space : Bytes} {before before' : List Token}, x ≤ text.length →
      headingsFrom text.slice space before (solid (tokensFrom x true (text.drop x))) = hs →
      (∀ d ∈ hs, d ∈ headings text) →
      (∀ d ∈ headings text, Legacy text d → x ≤ d.keyword.start → d ∈ hs) →
      SameFront before before' → ∀ trivia trivia' : List Token,
      (outlineFrom (Bytes.slice (dropWorkflowUsings (text.drop x))) trivia' ⟨[], space, none⟩ before'
          (solid (tokens (dropWorkflowUsings (text.drop x))))).map Outline.face
        = (outlineFrom text.slice trivia ⟨[], space, none⟩ before
          (solid (tokensFrom x true (text.drop x)))).map keeping := by
  induction hn : hs.length using Nat.strongRecOn generalizing hs with
  | _ n ih =>
    intro x space before before' hx heq hsub hall hfront trivia trivia'
    cases hfind : hs.find? (fun d => decide (Legacy text d)) with
    | none =>
      have hnone : ∀ d ∈ hs, ¬ Legacy text d := fun d hd => by
        simpa using List.find?_eq_none.1 hfind d hd
      refine outlineFrom_kept h hx (fun d hd hlegacy => ?_) (heq ▸ hnone) hfront trivia trivia'
      by_contra hle
      exact hnone d (hall d hd hlegacy (by omega)) hlegacy
    | some d =>
      obtain ⟨hlegacy, hs₀, hs', rfl, hnone⟩ := List.find?_eq_some_iff_append.1 hfind
      replace hlegacy : Legacy text d := of_decide_eq_true hlegacy
      replace hnone : ∀ d' ∈ hs₀, ¬ Legacy text d' := fun d' hd' => by simpa using hnone d' hd'
      have hd := hsub d (by simp)
      obtain ⟨u, l, v, P, space', behind, hp⟩ := h.exists_passage hx heq hd hlegacy
      have hdrop : text.drop (x + u.length + l.length) = v := by
        rw [Nat.add_assoc, ← List.length_append, ← List.drop_drop, hp.eq, ← List.append_assoc, List.drop_left]
      have hlen : x + u.length + l.length ≤ text.length := by
        have := congrArg List.length hp.eq
        simp only [List.length_drop, List.length_append] at this
        omega
      rw [hp.dropped h hall hnone, ← hdrop]
      refine hp.face h (by omega) hd hlegacy hnone hfront trivia trivia' fun before'' hfront' => ?_
      rw [← hdrop]
      refine ih hs'.length ?_ hs' rfl hlen (hdrop ▸ hp.rest.symm) (fun d' hd' => hsub d' ?_)
        (fun d' hd' hlegacy' hle => ?_) hfront' trivia trivia'
      · rw [← hn, List.length_append, List.length_cons]
        omega
      · exact List.mem_append_right _ (List.mem_cons_of_mem d hd')
      · -- the headings before it do not go, and it begins before
        have hpos := List.length_pos_iff.2 hp.pos
        have hstart := hp.start
        rcases List.mem_append.1 (hall d' hd' hlegacy' (by omega)) with hmem | hmem
        · exact absurd hlegacy' (hnone d' hmem)
        · rcases List.mem_cons.1 hmem with rfl | hmem
          · omega
          · exact hmem

/-- **Dropping the lines drops the directives that go, and nothing else**, when the lines are theirs. -/
theorem outline_dropWorkflowUsings {text : Bytes} (hnest : Source.Nested (tokens text)) (h : OnLines text) :
    ∃ o, outline text = .ok o ∧ (outline (dropWorkflowUsings text)).map Outline.face
      = .ok { o.face with usings := keptUsings o.usings } := by
  obtain ⟨o, ho, -⟩ := Source.outline_safe hnest
  refine ⟨o, ho, ?_⟩
  have hwalk := @outlineFrom_dropped text h (headings text) 0 [] [] [] (Nat.zero_le _) rfl (fun d hd => hd)
    (fun d hd _ _ => hd) (SameFront.refl []) ((tokens text).filter (·.isTrivia))
    ((tokens (dropWorkflowUsings text)).filter (·.isTrivia))
  rw [List.drop_zero] at hwalk
  rw [Source.outline_eq] at ho
  rw [Source.outline_eq]
  exact hwalk.trans (congrArg (Except.map keeping) ho)

/-- A source with a directive that goes, among others and with a blank line behind it. -/
def mixed : Bytes := "using A;\n\tusing System.Workflow.X ;\n\n#region\nusing B;\nclass C\x7b\x7d"

def legacyHeading : Heading :=
  ⟨some ⟨.mark, ";", 7⟩, ⟨.word, "using", 10⟩, [⟨.word, "System", 16⟩, ⟨.mark, ".", 22⟩,
    ⟨.word, "Workflow", 23⟩, ⟨.mark, ".", 31⟩, ⟨.word, "X", 32⟩]⟩

theorem outline_dropWorkflowUsings_mixed : Source.Nested (tokens mixed) ∧ OnLines mixed ∧
    ∃ o, outline mixed = .ok o ∧ o.usings = (["A", "System.Workflow.X", "B"] : List Bytes) ∧
      (outline (dropWorkflowUsings mixed)).map Outline.face
        = .ok { o.face with usings := (["A", "B"] : List Bytes) } := by
  have hcode : mixed = _ := Bytes.ofString_ofList _
  have hnest : Source.Nested (tokens mixed) := by
    rw [hcode]
    decide +kernel
  have hfound : ∀ n < mixed.length, workflowUsingLine? (mixed.drop n) ≠ none →
      ∃ d ∈ headings mixed, Legacy mixed d ∧ d.keyword.start = n := by
    rw [hcode]
    decide +kernel
  have hone : ∀ d ∈ headings mixed, Legacy mixed d → d = legacyHeading := by
    rw [hcode]
    decide +kernel
  have htarget : flat mixed.slice legacyHeading.target = "System.Workflow.X" := by
    rw [hcode]
    decide +kernel
  have hdotted : IsDotted "System.Workflow.X" := by decide +kernel
  have hlines : OnLines mixed := by
    constructor
    · intro n hsome
      refine hfound n ?_ hsome
      by_contra hn
      rw [List.drop_of_length_le (by omega)] at hsome
      exact hsome rfl
    · rintro d hd hlegacy
      rw [hone d hd hlegacy, htarget]
      rw [hcode]
      exact ⟨hdotted, by decide, [0x20], [], "\n#region\nusing B;\nclass C\x7b\x7d", by decide,
        by decide +kernel⟩
    · rintro d hd hlegacy
      rw [hone d hd hlegacy]
      decide
  refine ⟨hnest, hlines, ?_⟩
  obtain ⟨o, ho, hface⟩ := outline_dropWorkflowUsings hnest hlines
  have husings : (outline mixed).map (·.usings) = .ok ["A", "System.Workflow.X", "B"] := by
    rw [hcode]
    decide +kernel
  have hkept : keptUsings ["A", "System.Workflow.X", "B"] = (["A", "B"] : List Bytes) := by decide
  rw [ho] at husings
  have hread : o.usings = (["A", "System.Workflow.X", "B"] : List Bytes) := Except.ok.inj husings
  rw [hread, hkept] at hface
  exact ⟨o, ho, hread, hface⟩

/-- A comment with the text of a directive that goes. -/
def commentedOut : Bytes := "// using System.Workflow.X;\nclass C\x7b\x7d"

/-- The search may take the end of a comment, which then goes on over the class. -/
theorem outline_dropWorkflowUsings_commentedOut : Source.Nested (tokens commentedOut) ∧
    (outline commentedOut).map (·.class?.isSome) = .ok true ∧
    (outline (dropWorkflowUsings commentedOut)).map (·.class?.isSome) = .ok false := by
  rw [commentedOut, Bytes.ofString_ofList]
  decide +kernel

end Flowsmith.Activity
