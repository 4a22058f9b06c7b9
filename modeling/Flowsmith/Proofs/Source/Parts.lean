import Flowsmith.Proofs.Source.Slice
import Mathlib.Data.List.TakeWhile

/-!
# The parts of a source

* `partsFrom` : the targets of the using directives of a source, and the tokens of its class;
* `classBody`, `memberGroups` : the tokens of the body of a class, and of its members;
* `outlineFrom_inv`, `classOf_inv`, `membersOf_inv` : an outline is read from these parts;
* `memberSplit_nested` : the members of a nested body are nested;
* `piece_member` : the text of a member is a piece of the source.
-/

namespace Flowsmith.Source

/-! ## Using directives and the class -/

/-- The targets of the using directives in front of the class, and the tokens after the keyword of the
class; `space` is the namespace found before, `before` are the tokens in front, in reverse. -/
def partsFrom (src space : Bytes) (before ts : List Token) : List (List Token) × List Token :=
  match ts with
  | [] => ([], [])
  | t :: rest =>
    if t.is "using" && rest.head?.any (·.isWord) then
      let target := rest.takeWhile (!·.is ";")
      let more := partsFrom src space ((rest.take (target.length + 1)).reverse ++ t :: before)
        (rest.drop (target.length + 1))
      (target :: more.1, more.2)
    else if t.is "namespace" && space.isEmpty then
      let name := rest.takeWhile fun t => !(t.is Bytes.leftBrace || t.is ";")
      partsFrom src (flat src.slice name) ((rest.take (name.length + 1)).reverse ++ t :: before)
        (rest.drop (name.length + 1))
    else if t.is "class" && beginsClass before rest then ([], rest)
    else partsFrom src space (t :: before) rest
termination_by ts.length

def parts (src : Bytes) : List (List Token) × List Token := partsFrom src [] [] (solid (tokens src))

/-- An outline holds the targets of the using directives and the class. -/
theorem outlineFrom_inv {src : Bytes} {trivia before ts : List Token} {found o : Outline}
    (h : outlineFrom src.slice trivia found before ts = .ok o) :
    o.usings = found.usings ++ (partsFrom src found.space before ts).1.map (flat src.slice) ∧
    ∀ c, o.class? = some c → found.class? = none → ∃ before' keyword,
      classOf src.slice trivia before' keyword (partsFrom src found.space before ts).2 = .ok c := by
  fun_induction outlineFrom src.slice trivia found before ts with
  | case1 found before =>
    cases h
    rw [partsFrom]
    refine ⟨by simp, fun c hc hnone => ?_⟩
    rw [hc] at hnone
    cases hnone
  | case2 found before t rest husing target ih =>
    rw [partsFrom, if_pos husing]
    obtain ⟨husings, hclass⟩ := ih h
    exact ⟨by rw [husings]; simp [target], hclass⟩
  | case3 found before t rest husing hspace name ih =>
    rw [partsFrom, if_neg husing, if_pos hspace]
    exact ih h
  | case4 found before t rest husing hspace hclass =>
    rw [partsFrom, if_neg husing, if_neg hspace, if_pos hclass]
    obtain ⟨c, hc, rfl⟩ := map_eq_ok h
    refine ⟨by simp, fun c' hc' _ => ?_⟩
    cases hc'
    exact ⟨before, t, hc⟩
  | case5 found before t rest husing hspace hclass ih =>
    rw [partsFrom, if_neg husing, if_neg hspace, if_neg hclass]
    exact ih h

/-- Tokens that can be the target of a using directive: they begin with a word and hold no
semicolon. -/
structure IsTarget (ts target : List Token) : Prop where
  part : ∃ pre post, ts = pre ++ target ++ post
  head : ∃ t, target.head? = some t ∧ t.isWord = true
  inner : ∀ x ∈ target, x.is ";" = false

theorem IsTarget.of_suffix {ts ts' target : List Token} (h : IsTarget ts' target) (hs : ts' <:+ ts) :
    IsTarget ts target := by
  obtain ⟨pre, post, rfl⟩ := h.part
  obtain ⟨front, rfl⟩ := hs
  exact ⟨⟨front ++ pre, post, by simp⟩, h.head, h.inner⟩

theorem isTarget_takeWhile {t w : Token} {rest : List Token} (hw : w.isName = true) :
    IsTarget (t :: w :: rest) ((w :: rest).takeWhile (!·.is ";")) := by
  have hsemi : w.is ";" = false := isName_not_is hw (by simp [markTexts])
  refine ⟨⟨[t], (w :: rest).dropWhile (!·.is ";"), ?_⟩, ⟨w, ?_, Token.isWord_of_isName hw⟩,
    fun y hy => ?_⟩
  · rw [List.append_assoc, List.takeWhile_append_dropWhile]
    rfl
  · rw [List.takeWhile_cons_of_pos (by simp [hsemi])]
    rfl
  · simpa using List.mem_takeWhile_imp hy

/-- The targets of the using directives, and the class at the end of the tokens. -/
theorem partsFrom_mem (src space : Bytes) (before ts : List Token)
    (hsound : ∀ t ∈ ts, t.isWord = true → t.isName = true) :
    (∀ target ∈ (partsFrom src space before ts).1, IsTarget ts target) ∧
    (partsFrom src space before ts).2 <:+ ts := by
  fun_induction partsFrom src space before ts with
  | case1 => exact ⟨by simp, List.suffix_rfl⟩
  | case2 space before t rest husing target more ih =>
    have hdrop : rest.drop (target.length + 1) <:+ t :: rest :=
      (List.drop_suffix _ _).trans (List.suffix_cons _ _)
    obtain ⟨htargets, hclass⟩ := ih fun x hx => hsound x (hdrop.subset hx)
    refine ⟨fun x hx => ?_, hclass.trans hdrop⟩
    rcases List.mem_cons.1 hx with rfl | hx
    · simp only [Bool.and_eq_true] at husing
      cases rest with
      | nil => cases husing.2
      | cons w rest =>
        exact isTarget_takeWhile (hsound w (by simp) husing.2)
    · exact (htargets x hx).of_suffix hdrop
  | case3 space before t rest husing hspace name ih =>
    have hdrop : rest.drop (name.length + 1) <:+ t :: rest :=
      (List.drop_suffix _ _).trans (List.suffix_cons _ _)
    obtain ⟨htargets, hclass⟩ := ih fun x hx => hsound x (hdrop.subset hx)
    exact ⟨fun x hx => (htargets x hx).of_suffix hdrop, hclass.trans hdrop⟩
  | case4 space before t rest _ _ _ => exact ⟨by simp, List.suffix_cons _ _⟩
  | case5 space before t rest _ _ _ ih =>
    have hdrop : rest <:+ t :: rest := List.suffix_cons _ _
    obtain ⟨htargets, hclass⟩ := ih fun x hx => hsound x (hdrop.subset hx)
    exact ⟨fun x hx => (htargets x hx).of_suffix hdrop, hclass.trans hdrop⟩

/-! ## The body of the class -/

/-- The tokens between the braces of a class, from those after its keyword. -/
def classBody (after : List Token) : List Token :=
  let rest := after.tail
  let rest := if startsWith rest "<" then (splitPair "<" ">" rest).2 else rest
  match rest.dropWhile (!·.is Bytes.leftBrace) with
  | [] => []
  | brace :: inner => (splitPair Bytes.leftBrace Bytes.rightBrace (brace :: inner)).1.tail.dropLast

def memberGroups (ts : List Token) : List (List Token) :=
  match ts with
  | [] => []
  | t :: rest =>
    if t.is ";" then memberGroups rest
    else
      have := length_memberSplit_lt t rest
      (memberSplit (t :: rest)).1 :: memberGroups (memberSplit (t :: rest)).2
termination_by ts.length

theorem memberGroups_cons {t : Token} {rest g rest' : List Token} (ht : t.is ";" = false)
    (happ : t :: rest = g ++ rest') (hsplit : memberSplit (g ++ rest') = (g, rest')) :
    memberGroups (t :: rest) = g :: memberGroups rest' := by
  rw [memberGroups, if_neg (by simp [ht])]
  simp only [happ, hsplit]

/-- The members of a class are read from its body, which lies in the source after its opening
brace. -/
theorem classOf_inv {src : Bytes} {trivia before after : List Token} {keyword : Token} {c : Class}
    (h : classOf src.slice trivia before keyword after = .ok c) (hne : c.members ≠ [])
    {stack : List Bytes} (hnest : unclosed stack after = some []) :
    ∃ pre brace close post, after = pre ++ brace :: (classBody after ++ close :: post) ∧
      close.is Bytes.rightBrace = true ∧ Nested (classBody after) ∧
      membersOf src.slice (headText after) trivia brace.stop (classBody after) = .ok c.members := by
  unfold classOf at h
  simp only at h
  split at h
  · cases h
    exact absurd rfl hne
  · rename_i brace inner hbrace
    obtain ⟨members, hmembers, h⟩ := bind_eq_ok h
    cases h
    have hbody : classBody after
        = (splitPair Bytes.leftBrace Bytes.rightBrace (brace :: inner)).1.tail.dropLast := by
      unfold classBody
      simp only [hbrace]
    have hsuffix : brace :: inner <:+ after := by
      rw [← hbrace]
      refine (List.dropWhile_suffix _).trans ?_
      split
      · exact (splitPair_suffix _ _ _).trans (List.tail_suffix _)
      · exact List.tail_suffix _
    have hopen : brace.is Bytes.leftBrace = true := by
      have hhead := List.head?_dropWhile_not (fun t : Token => !t.is Bytes.leftBrace)
        (if startsWith after.tail "<" = true then (splitPair "<" ">" after.tail).2 else after.tail)
      rw [hbrace] at hhead
      simpa using hhead
    have hp : (Bytes.leftBrace, Bytes.rightBrace) ∈ bracketPairs := by simp [bracketPairs]
    obtain ⟨pre, rfl⟩ := hsuffix
    rw [unclosed_append] at hnest
    obtain ⟨stack', -, hinner⟩ := Option.bind_eq_some_iff.1 hnest
    rw [unclosed_open _ _ (closer?_of_is hp hopen)] at hinner
    obtain ⟨ys, close, zs, rfl, hys, hclose, -⟩ := exists_close inner hinner (Nat.zero_le _)
    have hgroup := splitPair_nested hp hopen hys hclose zs
    rw [List.cons_append] at hgroup
    rw [hgroup] at hbody hmembers
    have hys' : (brace :: ys ++ [close]).tail.dropLast = ys := by simp
    rw [hys'] at hbody hmembers
    refine ⟨pre, brace, close, zs, by rw [hbody], hclose, by rw [hbody]; exact hys, ?_⟩
    rw [hbody]
    exact hmembers

/-! ## Members -/

/-- Where the body of a class is nested, its first member and what follows it are. -/
theorem memberSplitFrom_nested {stack : List Bytes} {ts : List Token} (h : unclosed stack ts = some [])
    (assigned operator : Bool) :
    unclosed stack (memberSplitFrom (stack.length : Int) assigned operator ts).1 = some [] ∧
      Nested (memberSplitFrom (stack.length : Int) assigned operator ts).2 := by
  induction ts generalizing stack assigned operator with
  | nil => exact ⟨h, nested_nil⟩
  | cons t ts ih =>
    rw [memberSplitFrom, opens_eq]
    rcases unclosed_cases h with ⟨o, c, _, _, hc, _, hrest⟩ | ⟨c, rest, rfl, his, hn, hc, hrest⟩ |
      ⟨hn, hc, hrest⟩
    · rw [hc, if_pos Option.isSome_some,
        show ((stack.length : Nat) : Int) + 1 = (((c :: stack).length : Nat) : Int) by
          rw [List.length_cons]; omega]
      obtain ⟨h₁, h₂⟩ := ih hrest assigned operator
      exact ⟨(unclosed_open _ _ hc).trans h₁, h₂⟩
    · rw [hn, if_neg (by simp), if_pos hc]
      have step : ∀ a : Bool,
          unclosed (c :: rest) (t :: (memberSplitFrom (rest.length : Int) a operator ts).1) = some [] ∧
            Nested (memberSplitFrom (rest.length : Int) a operator ts).2 := fun a => by
        obtain ⟨h₁, h₂⟩ := ih hrest a operator
        exact ⟨(unclosed_close _ _ hn hc his).trans h₁, h₂⟩
      split
      · rename_i hend
        simp only [Bool.and_eq_true, beq_iff_eq] at hend
        have hnil : rest = [] := by
          refine List.eq_nil_of_length_eq_zero ?_
          have := hend.1.2
          rw [List.length_cons] at this
          omega
        subst hnil
        split
        · exact step true
        · exact ⟨(unclosed_close _ _ hn hc his).trans rfl, hrest⟩
      · rw [show (((c :: rest).length : Nat) : Int) - 1 = ((rest.length : Nat) : Int) by
          rw [List.length_cons]; omega]
        exact step assigned
    · rw [hn, if_neg (by simp), if_neg (by simp [hc])]
      split
      · rename_i hsemi
        simp only [Bool.and_eq_true, beq_iff_eq] at hsemi
        obtain rfl := List.eq_nil_of_length_eq_zero (show stack.length = 0 by omega)
        exact ⟨(unclosed_plain _ _ hn hc).trans rfl, hrest⟩
      · obtain ⟨h₁, h₂⟩ := ih hrest _ _
        exact ⟨(unclosed_plain _ _ hn hc).trans h₁, h₂⟩

theorem memberSplit_nested {ts : List Token} (h : Nested ts) :
    Nested (memberSplit ts).1 ∧ Nested (memberSplit ts).2 :=
  memberSplitFrom_nested (show unclosed [] ts = some [] from h) false false

/-- How the members of a class begin: with a semicolon that is no member, or with a member. -/
theorem membersOf_inv {src owner : Bytes} {trivia rest : List Token} {boundary : Nat} {t : Token}
    {ms : List Member} (h : membersOf src.slice owner trivia boundary (t :: rest) = .ok ms) :
    (t.is ";" = true ∧ membersOf src.slice owner trivia t.stop rest = .ok ms) ∨
    (t.is ";" = false ∧ ∃ g rest' m ms' b, t :: rest = g ++ rest' ∧ g.head? = some t ∧
      g.getLast? = some b ∧ memberSplit (g ++ rest') = (g, rest') ∧ memberOf src.slice owner g = .ok m ∧
      membersOf src.slice owner trivia b.stop rest' = .ok ms' ∧
      ms = { m with
        text := src.slice (textStart src.slice trivia boundary t.start) b.stop
        column := columnOf src.slice (textStart src.slice trivia boundary t.start) } :: ms') := by
  rw [membersOf] at h
  split at h
  · rename_i hsemi
    exact Or.inl ⟨hsemi, h⟩
  · rename_i hsemi
    refine Or.inr ⟨by simpa using hsemi, ?_⟩
    obtain ⟨m, hm, h⟩ := bind_eq_ok h
    obtain ⟨ms', hms', h⟩ := bind_eq_ok h
    cases h
    have happ := memberSplitFrom_append 0 false false (t :: rest)
    have hne := memberSplit_fst_ne_nil t rest
    obtain ⟨b, hb⟩ : ∃ b, (memberSplit (t :: rest)).1.getLast? = some b := by
      rw [← Option.isSome_iff_exists, List.getLast?_isSome]
      exact hne
    rw [hb] at hms' ⊢
    refine ⟨(memberSplit (t :: rest)).1, (memberSplit (t :: rest)).2, m, ms', b, happ.symm, ?_, hb, ?_,
      hm, hms', rfl⟩
    · obtain ⟨x, g, hg⟩ := List.exists_cons_of_ne_nil hne
      unfold memberSplit at hg
      rw [hg, List.cons_append] at happ
      unfold memberSplit
      rw [hg, (List.cons.inj happ).1]
      rfl
    · unfold memberSplit
      rw [happ]

/-- The text of a member begins at a comment or preprocessor line in front of its first token, or at
this token. -/
theorem textStart_cases (src : Bytes) (trivia : List Token) (boundary first : Nat) :
    textStart src.slice trivia boundary first = first ∨
      ∃ c ∈ trivia, boundary ≤ c.start ∧ c.stop ≤ first ∧
        textStart src.slice trivia boundary first = c.start := by
  unfold textStart
  split
  · rename_i c hc
    have hp := List.find?_some hc
    simp only [Bool.and_eq_true, decide_eq_true_eq] at hp
    exact Or.inr ⟨c, List.mem_of_find?_eq_some hc, hp.1.1, hp.1.2, rfl⟩
  · exact Or.inl rfl

/-- **The text of a member** is a piece of the source with the member's tokens. -/
theorem piece_member {src : Bytes} {trivia pre g post : List Token} {boundary : Nat} {t b : Token}
    (hends : ∀ t ∈ tokens src, t.isTerminated = true) (htrivia : ∀ c ∈ trivia, c ∈ tokens src)
    (hsolid : solid (tokens src) = pre ++ g ++ post) (ht : g.head? = some t) (hb : g.getLast? = some b)
    (hpre : ∀ x ∈ pre, x.stop ≤ boundary) (hbound : boundary ≤ t.start) :
    Piece (textStart src.slice trivia boundary t.start)
      (src.slice (textStart src.slice trivia boundary t.start) b.stop) g := by
  obtain ⟨-, hg, hpost⟩ := solid_bounds hsolid ht hb
  have htmem : t ∈ pre ++ g ++ post := by simp [List.mem_of_head? ht]
  have hbmem : b ∈ pre ++ g ++ post := by simp [List.mem_of_getLast? hb]
  have htb := hg t (List.mem_of_head? ht)
  have htpos := start_lt_of_solid hsolid htmem
  have hstart : boundary ≤ textStart src.slice trivia boundary t.start ∧
      textStart src.slice trivia boundary t.start ≤ t.start ∧
      Clean (tokens src) (textStart src.slice trivia boundary t.start) := by
    rcases textStart_cases src trivia boundary t.start with heq | ⟨c, hc, hle, hstop, heq⟩
    · rw [heq]
      exact ⟨hbound, Nat.le_refl _, (clean_of_mem (mem_of_solid hsolid htmem)).1⟩
    · rw [heq]
      have hcpos := (le_start_of_mem (htrivia c hc)).2
      exact ⟨hle, by omega, (clean_of_mem (htrivia c hc)).1⟩
  refine piece_slice hends hsolid hstart.2.2 (fun x hx => ?_) (fun x hx => ?_) (by omega) hpost
    ⟨b, by rw [hsolid]; exact hbmem, Or.inl rfl⟩
  · have := hpre x hx
    omega
  · have := hg x hx
    omega

end Flowsmith.Source
