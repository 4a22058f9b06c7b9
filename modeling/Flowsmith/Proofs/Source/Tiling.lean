import Flowsmith.Proofs.Source.Parts

/-!
# The members of a class body, side by side

Splitting a class body into members loses no token of it and takes none twice, whatever the brackets
of the source are. The text of a member begins after what precedes the member, and what it takes in
front of the member's first token is blanks, comments and preprocessor lines.

* `exists_token` : every byte of a source is a blank or belongs to a token;
* `Idle` : a stretch of blanks, comments and preprocessor lines;
* `LineStart` : where the line of an offset starts;
* `Tiled` : members that lie side by side in the tokens of a class body;
* `members_tiled` : the members of every class that is read.
-/

namespace Flowsmith.Source

/-! ## Bytes and tokens -/

theorem stop_le_of_mem {s : Bytes} {pos : Nat} {fresh : Bool} {t : Token}
    (h : t ∈ tokensFrom pos fresh s) : t.stop ≤ pos + s.length := by
  match s with
  | [] => rw [tokensFrom_nil] at h; cases h
  | c :: s =>
    rcases tokensFrom_cases pos fresh c s with ⟨_, heq⟩ | ⟨_, kind, b, r, rfl, _, heq⟩
    · rw [heq] at h
      have ih := stop_le_of_mem h
      rw [List.length_cons]
      omega
    · rw [heq] at h
      rw [List.length_cons, List.length_append]
      rcases List.mem_cons.1 h with rfl | h
      · simp only [Token.stop, List.length_cons]
        omega
      · have ih := stop_le_of_mem h
        rw [List.length_cons] at ih
        omega
termination_by s.length

theorem exists_token (s : Bytes) (pos : Nat) (fresh : Bool) {i : Nat} {x : UInt8}
    (hx : s[i]? = some x) :
    isBlankByte x = true ∨ ∃ t ∈ tokensFrom pos fresh s, t.start ≤ pos + i ∧ pos + i < t.stop := by
  match s with
  | [] => cases hx
  | c :: s =>
    rcases tokensFrom_cases pos fresh c s with ⟨hc, heq⟩ | ⟨_, kind, b, r, rfl, _, heq⟩
    · cases i with
      | zero =>
        cases hx
        exact Or.inl hc
      | succ i =>
        rw [List.getElem?_cons_succ] at hx
        rw [heq, show pos + (i + 1) = pos + 1 + i by omega]
        exact exists_token s (pos + 1) _ hx
    · rw [heq]
      by_cases hi : i < (c :: b).length
      · exact Or.inr ⟨_, List.mem_cons_self, by simp, by simp only [Token.stop]; omega⟩
      · rw [← List.cons_append, List.getElem?_append_right (by omega)] at hx
        rcases exists_token r (pos + (c :: b).length) false hx with hb | ⟨t, ht, hle, hlt⟩
        · exact Or.inl hb
        · exact Or.inr ⟨t, List.mem_cons_of_mem _ ht, by omega, by omega⟩
termination_by s.length

/-! ## Stretches and lines -/

/-- Between two offsets there are only blanks, comments and preprocessor lines. -/
def Idle (src : Bytes) (x y : Nat) : Prop :=
  ∀ i, x ≤ i → i < y → src[i]?.any isBlankByte = true ∨
    ∃ c ∈ tokens src, c.isTrivia = true ∧ c.start ≤ i ∧ i < c.stop

/-- The line of the offset `x` starts at `l`. -/
structure LineStart (src : Bytes) (x l : Nat) : Prop where
  le : l ≤ x
  first : l = 0 ∨ src[l - 1]? = some Bytes.newline
  unbroken : Bytes.newline ∉ src.slice l x

theorem idle_of_solid {src : Bytes} {pre g post : List Token} {t : Token} {x : Nat}
    (hsolid : solid (tokens src) = pre ++ g ++ post) (ht : g.head? = some t)
    (hpre : ∀ u ∈ pre, u.stop ≤ x) : Idle src x t.start := by
  have hmem : t ∈ tokens src :=
    (mem_solid.1 (hsolid ▸ by simp [List.mem_of_head? ht])).1
  intro i hx hi
  have hlen : i < src.length := by
    have := stop_le_of_mem hmem
    have := le_start_of_mem hmem
    omega
  rw [List.getElem?_eq_getElem hlen]
  rcases exists_token src 0 true (List.getElem?_eq_getElem hlen) with hb | ⟨c, hc, hle, hlt⟩
  · exact Or.inl hb
  refine Or.inr ⟨c, hc, ?_, by omega, by omega⟩
  by_contra htrivia
  -- a token that is no comment lies in front of the stretch or after it
  have hcs : c ∈ solid (tokens src) := mem_solid.2 ⟨hc, by simpa using htrivia⟩
  obtain ⟨g', rfl⟩ : ∃ g', g = t :: g' := by
    cases g with
    | nil => cases ht
    | cons y g' => cases ht; exact ⟨g', rfl⟩
  have hsorted := sorted_solid src
  rw [hsolid] at hcs hsorted
  rw [List.append_assoc, List.cons_append] at hcs hsorted
  rcases List.mem_append.1 hcs with hpre' | hrest
  · have := hpre c hpre'
    omega
  · have hafter := (List.pairwise_append.1 hsorted).2.1
    rcases List.mem_cons.1 hrest with rfl | hrest
    · omega
    · have := (List.pairwise_cons.1 hafter).1 c hrest
      have := le_start_of_mem hmem
      omega

/-- A text up to and from the last occurrence of a byte. -/
theorem exists_afterLast (s : Bytes) (c : UInt8) :
    ∃ a b, s = a ++ b ∧ Bytes.afterLast s c = a.length ∧ c ∉ b ∧ (a = [] ∨ a.getLast? = some c) := by
  have hsplit : s = (s.reverse.dropWhile (· != c)).reverse ++ (s.reverse.takeWhile (· != c)).reverse := by
    rw [← List.reverse_append, List.takeWhile_append_dropWhile, List.reverse_reverse]
  refine ⟨_, _, hsplit, ?_, fun hc => ?_, ?_⟩
  · have hlen := congrArg List.length hsplit
    simp only [List.length_append, List.length_reverse] at hlen
    rw [Bytes.afterLast, List.length_reverse]
    omega
  · simpa using List.mem_takeWhile_imp (List.mem_reverse.1 hc)
  · cases hd : s.reverse.dropWhile (· != c) with
    | nil => exact Or.inl rfl
    | cons y ys =>
      have hy := List.head?_dropWhile_not (· != c) s.reverse
      rw [hd] at hy
      have hy : y = c := by simpa using hy
      exact Or.inr (by simp [hy])

theorem columnOf_eq {src : Bytes} {x : Nat} (hx : x ≤ src.length) :
    ∃ l, LineStart src x l ∧ columnOf src.slice x = x - l := by
  obtain ⟨a, b, htake, hlen, hnot, hfirst⟩ := exists_afterLast (src.take x) Bytes.newline
  have hle := congrArg List.length htake
  rw [List.length_take, Nat.min_eq_left hx, List.length_append] at hle
  have hcut : src.slice 0 x = src.take x := rfl
  refine ⟨a.length, ⟨by omega, ?_, ?_⟩, by rw [columnOf, hcut, hlen]⟩
  · rcases hfirst with rfl | hlast
    · exact Or.inl rfl
    · rw [List.getLast?_eq_getElem?] at hlast
      have hget : (src.take x)[a.length - 1]? = some Bytes.newline := by
        rw [htake, List.getElem?_append_left]
        · exact hlast
        · exact (List.getElem?_eq_some_iff.1 hlast).1
      rw [List.getElem?_take] at hget
      split at hget
      · exact Or.inr hget
      · cases hget
  · rwa [Bytes.slice, ← List.drop_take, htake, List.drop_left]

/-! ## Members side by side -/

/-- The members lie side by side in the tokens of a class body, with semicolons between them: each
takes the tokens from its first through its last one, and its text begins after `boundary`, where what
precedes it stops. -/
inductive Tiled (src : Bytes) : Nat → List Token → List Member → Prop where
  | done (boundary : Nat) : Tiled src boundary [] []
  | semicolon {boundary : Nat} {t : Token} {ts : List Token} {ms : List Member}
      (ht : t.is ";" = true) (h : Tiled src t.stop ts ms) : Tiled src boundary (t :: ts) ms
  | member {boundary : Nat} {g ts : List Token} {m : Member} {ms : List Member} {first last : Token}
      {s : Nat} (hfirst : g.head? = some first) (hlast : g.getLast? = some last)
      (hboundary : boundary ≤ s) (hs : s ≤ first.start) (hidle : Idle src s first.start)
      (htext : m.text = src.slice s last.stop)
      (hcolumn : ∃ l, LineStart src s l ∧ m.column = s - l) (h : Tiled src last.stop ts ms) :
      Tiled src boundary (g ++ ts) (m :: ms)

/-- The texts of members that lie side by side are disjoint parts of the source. -/
theorem Tiled.spans {src : Bytes} {boundary : Nat} {ts : List Token} {ms : List Member}
    (h : Tiled src boundary ts ms) (hsorted : ts.Pairwise fun a b => a.stop ≤ b.start)
    (hmem : ∀ t ∈ ts, t ∈ tokens src) (hbound : ∀ t ∈ ts, boundary ≤ t.start) :
    ∃ spans : List (Nat × Nat), ms.map (·.text) = spans.map (fun p => src.slice p.1 p.2) ∧
      spans.Pairwise (fun p q => p.2 ≤ q.1) ∧
      ∀ p ∈ spans, boundary ≤ p.1 ∧ p.1 < p.2 ∧ p.2 ≤ src.length := by
  induction h with
  | done => exact ⟨[], rfl, List.Pairwise.nil, by simp⟩
  | @semicolon boundary t ts ms _ _ ih =>
    obtain ⟨spans, htexts, hdisjoint, hin⟩ := ih hsorted.tail
      (fun u hu => hmem u (List.mem_cons_of_mem _ hu)) fun u hu => (List.pairwise_cons.1 hsorted).1 u hu
    refine ⟨spans, htexts, hdisjoint, fun p hp => ⟨?_, (hin p hp).2⟩⟩
    have := hbound t List.mem_cons_self
    have := (le_start_of_mem (hmem t List.mem_cons_self)).2
    have := (hin p hp).1
    omega
  | @member boundary g ts m ms first last s hfirst hlast hboundary hs _ htext _ _ ih =>
    obtain ⟨hg, hts, hcross⟩ := List.pairwise_append.1 hsorted
    have hlastMem := List.mem_of_getLast? hlast
    obtain ⟨spans, htexts, hdisjoint, hin⟩ := ih hts
      (fun u hu => hmem u (List.mem_append_right _ hu)) fun u hu => hcross last hlastMem u hu
    have hle : first.start < last.stop := by
      obtain ⟨g', rfl⟩ : ∃ g', g = first :: g' := by
        cases g with
        | nil => cases hfirst
        | cons y g' => cases hfirst; exact ⟨g', rfl⟩
      have hlastPos := (le_start_of_mem (hmem last (List.mem_append_left _ hlastMem))).2
      have hfirstPos := (le_start_of_mem (hmem first (by simp))).2
      rcases List.mem_cons.1 hlastMem with rfl | hl
      · exact hlastPos
      · have := (List.pairwise_cons.1 hg).1 last hl
        omega
    have hlen := stop_le_of_mem (hmem last (List.mem_append_left _ hlastMem))
    refine ⟨(s, last.stop) :: spans, ?_, List.Pairwise.cons (fun p hp => (hin p hp).1) hdisjoint,
      fun p hp => ?_⟩
    · rw [List.map_cons, List.map_cons, htext, htexts]
    · rcases List.mem_cons.1 hp with rfl | hp
      · exact ⟨hboundary, by simp only; omega, by simpa using hlen⟩
      · have := hin p hp
        exact ⟨by omega, this.2⟩

/-- The members that are read from the tokens of a class body lie side by side in them. -/
theorem tiled_membersOf {src owner : Bytes} {trivia pre ts post : List Token} {boundary : Nat}
    {ms : List Member} (hts : Framed src pre ts post boundary) (htrivia : ∀ c ∈ trivia, c ∈ tokens src)
    (h : membersOf src.slice owner trivia boundary ts = .ok ms) : Tiled src boundary ts ms := by
  match ts with
  | [] =>
    rw [membersOf] at h
    cases h
    exact .done boundary
  | t :: rest =>
    have htmem : t ∈ tokens src := mem_of_solid hts.solid_eq (by simp)
    have htpos := (le_start_of_mem htmem).2
    have htb := hts.after t List.mem_cons_self
    rcases membersOf_inv h with ⟨hsemi, hrest⟩ | ⟨-, g, rest', m, ms', b, heq, hg, hb, -, -, hrest, rfl⟩
    · exact .semicolon hsemi (tiled_membersOf (hts.next (g := [t]) rfl) htrivia hrest)
    · rw [heq] at hts ⊢
      have hsolid : solid (tokens src) = pre ++ g ++ (rest' ++ post) := by simp [hts.solid_eq]
      have hstart : boundary ≤ textStart src.slice trivia boundary t.start ∧
          textStart src.slice trivia boundary t.start ≤ t.start := by
        rcases textStart_cases src trivia boundary t.start with heq | ⟨c, hc, hle, hstop, heq⟩
        · rw [heq]
          exact ⟨htb, Nat.le_refl _⟩
        · have := (le_start_of_mem (htrivia c hc)).2
          rw [heq]
          exact ⟨hle, by omega⟩
      have hlen : t.stop ≤ src.length := by simpa using stop_le_of_mem htmem
      have hlt : rest'.length < (t :: rest).length := by
        have := congrArg List.length heq
        rw [List.length_append] at this
        have := List.length_pos_iff.2 fun hnil : g = [] => by simp [hnil] at hg
        omega
      exact .member hg hb hstart.1 hstart.2
        (idle_of_solid hsolid hg fun x hx => Nat.le_trans (hts.before x hx) hstart.1) rfl
        (columnOf_eq (by omega)) (tiled_membersOf (hts.next hb) htrivia hrest)
termination_by ts.length
decreasing_by
  · exact Nat.lt_succ_self _
  · exact hlt

/-! ## The class of a source -/

/-- The tokens of the block of a class, from those after its keyword: its opening brace through the
token that is taken to close it, which is the last one when no brace does. -/
def classBlock (after : List Token) : List Token :=
  let rest := after.tail
  let rest := if startsWith rest "<" then (splitPair "<" ">" rest).2 else rest
  (splitPair Bytes.leftBrace Bytes.rightBrace (rest.dropWhile (!·.is Bytes.leftBrace))).1

theorem outlineFrom_class {src : Bytes} {trivia before ts : List Token} {found o : Outline} {c : Class}
    (h : outlineFrom src.slice trivia found before ts = .ok o) (hfound : found.class? = none)
    (hc : o.class? = some c) : ∃ front keyword after, ts = front ++ keyword :: after ∧
      keyword.is "class" = true ∧ ∃ before', classOf src.slice trivia before' keyword after = .ok c := by
  fun_induction outlineFrom src.slice trivia found before ts with
  | case1 found before =>
    cases h
    rw [hfound] at hc
    cases hc
  | case2 found before t rest husing target ih =>
    obtain ⟨front, keyword, after, heq, hkey, hclass⟩ := ih h hfound
    refine ⟨t :: rest.take (target.length + 1) ++ front, keyword, after, ?_, hkey, hclass⟩
    rw [List.append_assoc, ← heq, List.cons_append, List.take_append_drop]
  | case3 found before t rest husing hspace name ih =>
    obtain ⟨front, keyword, after, heq, hkey, hclass⟩ := ih h hfound
    refine ⟨t :: rest.take (name.length + 1) ++ front, keyword, after, ?_, hkey, hclass⟩
    rw [List.append_assoc, ← heq, List.cons_append, List.take_append_drop]
  | case4 found before t rest husing hspace hclass =>
    obtain ⟨c', hc', rfl⟩ := map_eq_ok h
    cases hc
    rw [Bool.and_eq_true] at hclass
    exact ⟨[], t, rest, rfl, hclass.1, before, hc'⟩
  | case5 found before t rest husing hspace hclass ih =>
    obtain ⟨front, keyword, after, heq, hkey, hclass⟩ := ih h hfound
    exact ⟨t :: front, keyword, after, by rw [heq, List.cons_append], hkey, hclass⟩

/-- The members of a class are read from what stands inside its block. -/
theorem classOf_block {src : Bytes} {trivia before after : List Token} {keyword : Token} {c : Class}
    (h : classOf src.slice trivia before keyword after = .ok c) :
    c.keywordStart = keyword.start ∧
    ((classBlock after = [] ∧ c.members = []) ∨
      ∃ brace inner pre post, classBlock after = brace :: inner ∧ brace.is Bytes.leftBrace = true ∧
        after = pre ++ (brace :: inner) ++ post ∧
        membersOf src.slice (headText after) trivia brace.stop inner.dropLast = .ok c.members) := by
  unfold classOf at h
  simp only at h
  have hblock : classBlock after = (splitPair Bytes.leftBrace Bytes.rightBrace
      ((if startsWith after.tail "<" = true then (splitPair "<" ">" after.tail).2 else after.tail).dropWhile
        (!·.is Bytes.leftBrace))).1 := rfl
  split at h
  · rename_i hnone
    cases h
    rw [hnone] at hblock
    exact ⟨rfl, Or.inl ⟨hblock, rfl⟩⟩
  · rename_i brace rest hbrace
    obtain ⟨members, hmembers, h⟩ := bind_eq_ok h
    cases h
    rw [hbrace] at hblock
    have hopen : brace.is Bytes.leftBrace = true := by
      have hhead := List.head?_dropWhile_not (fun t : Token => !t.is Bytes.leftBrace)
        (if startsWith after.tail "<" = true then (splitPair "<" ">" after.tail).2 else after.tail)
      rw [hbrace] at hhead
      simpa using hhead
    have hsuffix : brace :: rest <:+ after := by
      rw [← hbrace]
      refine (List.dropWhile_suffix _).trans ?_
      split
      · exact (splitPair_suffix _ _ _).trans (List.tail_suffix _)
      · exact List.tail_suffix _
    obtain ⟨pre, hpre⟩ := hsuffix
    have happ := splitPair_append Bytes.leftBrace Bytes.rightBrace (brace :: rest)
    obtain ⟨x, inner, hgroup⟩ :=
      List.exists_cons_of_ne_nil (splitPair_fst_ne_nil Bytes.leftBrace Bytes.rightBrace brace rest)
    rw [hgroup, List.cons_append] at happ
    obtain ⟨rfl, hrest⟩ := List.cons.inj happ
    rw [hgroup] at hblock hmembers
    refine ⟨rfl, Or.inr ⟨x, inner, pre, (splitPair Bytes.leftBrace Bytes.rightBrace (x :: rest)).2,
      hblock, hopen, ?_, hmembers⟩⟩
    rw [List.append_assoc, List.cons_append, hrest, hpre]

/-- The members of a class take the tokens between its opening brace and the token that closes it side
by side, and their texts are disjoint parts of the source in order. A class without a block has no
members. -/
def TiledBody (src : Bytes) (c : Class) : Prop :=
  ∃ front keyword after, solid (tokens src) = front ++ keyword :: after ∧
    keyword.is "class" = true ∧ keyword.start = c.keywordStart ∧
    ((classBlock after = [] ∧ c.members = []) ∨
      ∃ brace inner pre post, classBlock after = brace :: inner ∧
        brace.is Bytes.leftBrace = true ∧ after = pre ++ (brace :: inner) ++ post ∧
        Tiled src brace.stop inner.dropLast c.members ∧
        ∃ spans : List (Nat × Nat),
          c.members.map (·.text) = spans.map (fun p => src.slice p.1 p.2) ∧
          spans.Pairwise (fun p q => p.2 ≤ q.1) ∧ ∀ p ∈ spans, p.1 < p.2 ∧ p.2 ≤ src.length)

/-- **No code of a class body is lost or taken twice.** This holds of every class that is read, however
the brackets of the source are nested. -/
theorem members_tiled {src : Bytes} {o : Outline} {c : Class} (h : outline src = .ok o)
    (hc : o.class? = some c) : TiledBody src c := by
  obtain ⟨front, keyword, after, hsolid, hkey, before, hclass⟩ := outlineFrom_class h rfl hc
  have hsolid : solid (tokens src) = front ++ keyword :: after := hsolid
  obtain ⟨hstart, hblock⟩ := classOf_block hclass
  refine ⟨front, keyword, after, hsolid, hkey, hstart.symm, ?_⟩
  rcases hblock with hnone | ⟨brace, inner, pre, post, hblock, hopen, hafter, hmembers⟩
  · exact Or.inl hnone
  refine Or.inr ⟨brace, inner, pre, post, hblock, hopen, hafter, ?_⟩
  -- the tokens inside the block, between those in front of it and those after it
  have hinner : inner = inner.dropLast ++ inner.getLast?.toList := by
    cases hl : inner.getLast? with
    | none =>
      rw [List.getLast?_eq_none_iff.1 hl]
      rfl
    | some b =>
      obtain ⟨xs, rfl⟩ := List.getLast?_eq_some_iff.1 hl
      simp
  have hparts : solid (tokens src) = (front ++ keyword :: pre ++ [brace]) ++ inner.dropLast
      ++ (inner.getLast?.toList ++ post) := by
    rw [hsolid, hafter]
    conv => lhs; rw [hinner]
    simp
  have hframed : Framed src (front ++ keyword :: pre ++ [brace]) inner.dropLast
      (inner.getLast?.toList ++ post) brace.stop := .of_solid (by simpa using hparts) rfl
  have htiled := tiled_membersOf hframed (fun x hx => (List.mem_filter.1 hx).1) hmembers
  have hbody : inner.dropLast.Pairwise fun a b => a.stop ≤ b.start := by
    have hsorted := sorted_solid src
    rw [hparts] at hsorted
    exact (List.pairwise_append.1 (List.pairwise_append.1 hsorted).1).2.1
  obtain ⟨spans, htexts, hdisjoint, hin⟩ := htiled.spans hbody
    (fun t ht => mem_of_solid hparts (by simp [ht])) hframed.after
  exact ⟨htiled, spans, htexts, hdisjoint, fun p hp => (hin p hp).2⟩

/-- A class with a semicolon between its members and a parenthesis that is never closed. -/
def tangled : Bytes := "class A \x7bint X; ;\n // y\n int Y( \x7d"

theorem members_tiled_tangled : ∃ o c, outline tangled = .ok o ∧ o.class? = some c ∧
    c.members.map (fun m => (m.text, m.column))
      = [(("int X;" : Bytes), 9), (("// y\n int Y(" : Bytes), 1)] ∧ TiledBody tangled c := by
  have h : ((outline tangled).toOption.bind (·.class?)).map
      (fun c => c.members.map fun m => (m.text, m.column))
      = some [(("int X;" : Bytes), 9), (("// y\n int Y(" : Bytes), 1)] := by
    rw [tangled]
    repeat rw [Bytes.ofString_ofList]
    decide +kernel
  obtain ⟨c, hc, hmembers⟩ := Option.map_eq_some_iff.1 h
  obtain ⟨o, ho, hc⟩ := Option.bind_eq_some_iff.1 hc
  exact ⟨o, c, eq_ok_of_toOption ho, hc, hmembers, members_tiled (eq_ok_of_toOption ho) hc⟩

end Flowsmith.Source
