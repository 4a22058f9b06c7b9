import Flowsmith.Proofs.Source.Tiling

/-!
# What the scanner cuts out of a source

All texts of an outline are cut out of the source between two offsets. Cutting is only meaningful for
offsets that are in order and inside the source, so the scanner is run here with any function that is
right for such offsets and arbitrary for all others: the outline is the same. What is left to go wrong
is a block without a token after its brace, and where the brackets are nested there is none.

* `Agrees src cut` : `cut` is right for the offsets that are in order and inside `src`;
* `Orderly src ts` : tokens side by side inside `src`; every group the scanner makes is part of such;
* `outlineFrom_congr` : only offsets in order are cut, whatever the source is;
* `outlineFrom_ok` : sources with nested brackets are read;
* `outline_safe` : the two together.
-/

namespace Flowsmith.Source

/-- A function that cuts `src` between offsets that are in order and inside it. -/
def Agrees (src : Bytes) (cut : Nat → Nat → Bytes) : Prop :=
  ∀ a b, a ≤ b → b ≤ src.length → cut a b = src.slice a b

/-- Tokens side by side inside `src`. -/
structure Orderly (src : Bytes) (ts : List Token) : Prop where
  sorted : ts.Pairwise fun a b => a.stop ≤ b.start
  within : ∀ t ∈ ts, t.stop ≤ src.length

theorem orderly_tokens (src : Bytes) : Orderly src (tokens src) := by
  refine ⟨sorted_tokensFrom src 0 true, fun t ht => ?_⟩
  have := stop_le_of_mem ht
  omega

theorem Orderly.sublist {src : Bytes} {ts ts' : List Token} (h : Orderly src ts)
    (hs : ts'.Sublist ts) : Orderly src ts' :=
  ⟨h.sorted.sublist hs, fun t ht => h.within t (hs.subset ht)⟩

theorem Orderly.start_le_stop {src : Bytes} {ts : List Token} {a b : Token} (h : Orderly src ts)
    (ha : ts.head? = some a) (hb : b ∈ ts) : a.start ≤ b.stop := by
  cases ts with
  | nil => cases ha
  | cons t ts =>
    obtain rfl : t = a := by simpa using ha
    have hstop : t.start ≤ t.stop := Nat.le_add_right _ _
    rcases List.mem_cons.1 hb with rfl | hb
    · exact hstop
    · have hle := (List.pairwise_cons.1 h.sorted).1 b hb
      have : b.start ≤ b.stop := Nat.le_add_right _ _
      omega

/-! ## Only offsets in order are cut -/

section

variable {src : Bytes} {cut : Nat → Nat → Bytes} (hcut : Agrees src cut) {ts : List Token}

include hcut

theorem raw_congr (h : Orderly src ts) : raw cut ts = raw src.slice ts := by
  unfold raw
  split
  · rename_i a b ha hb
    have hmem := List.mem_of_getLast? hb
    exact hcut _ _ (h.start_le_stop ha hmem) (h.within b hmem)
  · rfl

theorem flat_congr (h : Orderly src ts) : flat cut ts = flat src.slice ts := by
  rw [flat, flat, raw_congr hcut h]

theorem inside?_congr (h : Orderly src ts) : inside? cut ts = inside? src.slice ts := by
  match ts with
  | [] => rfl
  | [_] => rfl
  | a :: b :: ts =>
    have hmem := List.getLast_mem (List.cons_ne_nil b ts)
    have hle := (List.pairwise_cons.1 h.sorted).1 _ hmem
    have hin := h.within _ (List.mem_cons_of_mem a hmem)
    have hstop : ((b :: ts).getLast (by simp)).start ≤ ((b :: ts).getLast (by simp)).stop :=
      Nat.le_add_right _ _
    rw [inside?, inside?, hcut _ _ hle (Nat.le_trans hstop hin)]

theorem blockText_congr (h : Orderly src ts) : blockText cut ts = blockText src.slice ts := by
  rw [blockText, blockText, inside?_congr hcut h]

theorem paramOf_congr (h : Orderly src ts) : paramOf cut ts = paramOf src.slice ts := by
  have hbare : Orderly src ((attributesSplit ts).2.dropWhile (isWordOf paramWords)) :=
    h.sublist ((List.dropWhile_sublist _).trans (attributesSplit_suffix ts).sublist)
  have hdefault := raw_congr hcut (hbare.sublist ((List.tail_sublist _).trans
    (List.dropWhile_sublist (!·.is "="))))
  have htype := flat_congr hcut (hbare.sublist ((List.dropLast_sublist _).trans
    (List.takeWhile_sublist (!·.is "="))))
  unfold paramOf
  simp only [hdefault, htype]

omit hcut in
/-- The groups between commas are made of the tokens at hand. -/
theorem commaGroups_sublist {depth : Int} {g : List Token} (h : g ∈ commaGroups depth ts) :
    g.Sublist ts := by
  induction ts generalizing depth g with
  | nil => simp [commaGroups] at h; exact h ▸ List.Sublist.refl _
  | cons t ts ih =>
    rw [commaGroups] at h
    split at h
    · rcases List.mem_cons.1 h with rfl | h
      · exact List.nil_sublist _
      · exact (ih h).cons t
    · split at h
      · rw [List.mem_singleton.1 h]
        exact (List.nil_sublist ts).cons_cons t
      · rename_i group groups hgroups
        rcases List.mem_cons.1 h with rfl | h
        · exact (ih (hgroups ▸ List.mem_cons_self)).cons_cons t
        · exact (ih (hgroups ▸ List.mem_cons_of_mem _ h)).cons t

theorem paramsOf_congr (h : Orderly src ts) : paramsOf cut ts = paramsOf src.slice ts := by
  refine List.map_congr_left fun g hg => paramOf_congr hcut (h.sublist ?_)
  exact commaGroups_sublist (List.mem_filter.1 hg).1

omit hcut in
theorem splitPair_fst_sublist (o c : Bytes) (ts : List Token) : (splitPair o c ts).1.Sublist ts := by
  conv => rhs; rw [← splitPair_append o c ts]
  exact List.sublist_append_left _ _

omit hcut in
theorem dropSemicolon_sublist (ts : List Token) : (dropSemicolon ts).Sublist ts := by
  unfold dropSemicolon
  split
  · exact List.dropLast_sublist ts
  · exact List.Sublist.refl ts

theorem bodyOf_congr (h : Orderly src ts) : bodyOf cut ts = bodyOf src.slice ts := by
  induction ts with
  | nil => rfl
  | cons t ts ih =>
    have hts := h.sublist (List.sublist_cons_self t ts)
    rw [bodyOf, bodyOf, blockText_congr hcut (h.sublist (splitPair_fst_sublist _ _ _)),
      raw_congr hcut (hts.sublist (dropSemicolon_sublist ts)), ih hts]

theorem accessorsOf_congr (h : Orderly src ts) : accessorsOf cut ts = accessorsOf src.slice ts := by
  induction hn : ts.length using Nat.strongRecOn generalizing ts with
  | _ n ih =>
    -- a group made of the tokens after the keyword of the first accessor is shorter
    have hrec : ∀ {ts' : List Token}, ts'.Sublist ts → ts'.length < n →
        accessorsOf cut ts' = accessorsOf src.slice ts' := by
      intro ts' hs hlen
      exact ih _ hlen (h.sublist hs) rfl
    have hs : ((attributesSplit ts).2.dropWhile isAccessorModifier).Sublist ts :=
      (List.dropWhile_sublist _).trans (attributesSplit_suffix ts).sublist
    rw [accessorsOf_eq, accessorsOf_eq]
    match hrest : (attributesSplit ts).2.dropWhile isAccessorModifier with
    | [] => simp only [hrest]
    | [keyword] => simp only [hrest]
    | keyword :: next :: after =>
      rw [hrest] at hs
      have hlen := hs.length_le
      have hnext : (next :: after).Sublist ts := (List.sublist_cons_self _ _).trans hs
      have hafter : after.Sublist ts := (List.sublist_cons_self _ _).trans hnext
      have hpair := (splitPair_suffix Bytes.leftBrace Bytes.rightBrace (next :: after)).sublist
      have hskip : (after.dropWhile (!·.is ";")).tail.Sublist after :=
        (List.tail_sublist _).trans (List.dropWhile_sublist _)
      have hskiplen := hskip.length_le
      have hpairlen := hpair.length_le
      simp only [List.length_cons] at hlen hpairlen
      simp only [hrest]
      rw [blockText_congr hcut (h.sublist ((splitPair_fst_sublist _ _ _).trans hnext)),
        raw_congr hcut (h.sublist ((List.takeWhile_sublist _).trans hafter)),
        hrec hafter (by omega), hrec (hpair.trans hnext) (by omega),
        hrec (hskip.trans hafter) (by omega),
        hrec hnext (by simp only [List.length_cons]; omega)]

theorem typedMember_congr (h : Orderly src ts) (m : Member) :
    typedMember cut m ts = typedMember src.slice m ts := by
  unfold typedMember
  cases htype : afterType? ts with
  | none => rfl
  | some after =>
    cases after with
    | nil => rfl
    | cons word rest =>
      obtain ⟨type, hts, -⟩ := afterType?_suffix htype
      have hrest : rest <:+ ts := (List.suffix_cons word rest).trans ⟨type, hts.symm⟩
      have hafter : Orderly src (afterName word rest) :=
        h.sublist ((afterName_suffix word rest).trans hrest).sublist
      have hpair := fun o c => hafter.sublist (splitPair_fst_sublist o c (afterName word rest))
      have hinner : ∀ o c, Orderly src (splitPair o c (afterName word rest)).1.tail.dropLast :=
        fun o c => (hpair o c).sublist ((List.dropLast_sublist _).trans (List.tail_sublist _))
      have hbody := fun o c => hafter.sublist (splitPair_suffix o c (afterName word rest)).sublist
      have hsemi := hafter.sublist ((dropSemicolon_sublist _).trans (List.tail_sublist _))
      simp only [afterName] at hbody hinner hsemi
      simp only [flat_congr hcut (h.sublist (List.take_sublist _ ts)), bodyOf_congr hcut (hbody _ _),
        paramsOf_congr hcut (hinner _ _), accessorsOf_congr hcut (hinner _ _), raw_congr hcut hsemi]

omit hcut in
theorem attributesSplit_sublist {g : List Token} (h : g ∈ (attributesSplit ts).1) : g.Sublist ts := by
  fun_induction attributesSplit ts with
  | case1 => cases h
  | case2 t rest _ _ pair more ih =>
    rcases List.mem_cons.1 h with rfl | h
    · exact splitPair_fst_sublist _ _ _
    · exact (ih h).trans (splitPair_suffix _ _ _).sublist
  | case3 => cases h

theorem memberOf_congr (owner : Bytes) (h : Orderly src ts) :
    memberOf cut owner ts = memberOf src.slice owner ts := by
  have hattributes : (attributesSplit ts).1.map (flat cut) = (attributesSplit ts).1.map (flat src.slice) :=
    List.map_congr_left fun g hg => flat_congr hcut (h.sublist (attributesSplit_sublist hg))
  have hs : ((attributesSplit ts).2.dropWhile isModifier).Sublist ts :=
    (List.dropWhile_sublist _).trans (attributesSplit_suffix ts).sublist
  unfold memberOf
  simp only [hattributes]
  cases hrest : (attributesSplit ts).2.dropWhile isModifier with
  | nil => rfl
  | cons t rest =>
    rw [hrest] at hs
    have hrest : Orderly src rest := h.sublist ((List.sublist_cons_self t rest).trans hs)
    have hparams := (hrest.sublist (splitPair_fst_sublist "(" ")" rest)).sublist
      ((List.dropLast_sublist _).trans (List.tail_sublist _))
    simp only [bodyOf_congr hcut (hrest.sublist (splitPair_suffix "(" ")" rest).sublist),
      paramsOf_congr hcut hparams, typedMember_congr hcut (h.sublist hs)]

omit hcut in
theorem find?_congr {α : Type} {p q : α → Bool} {l : List α} (h : ∀ x ∈ l, p x = q x) :
    l.find? p = l.find? q := by
  induction l with
  | nil => rfl
  | cons x l ih =>
    rw [List.find?_cons, List.find?_cons, h x List.mem_cons_self,
      ih fun y hy => h y (List.mem_cons_of_mem _ hy)]

theorem textStart_congr {trivia : List Token} (htrivia : Orderly src trivia) (boundary first : Nat) :
    textStart cut trivia boundary first = textStart src.slice trivia boundary first := by
  unfold textStart
  rw [find?_congr fun c hc => ?_]
  by_cases hle : boundary ≤ c.start
  · rw [hcut _ _ hle (Nat.le_trans (Nat.le_add_right _ _) (htrivia.within c hc))]
  · simp [hle]

omit hcut in
theorem prefix_memberSplit (ts : List Token) : (memberSplit ts).1 <+: ts :=
  ⟨_, memberSplitFrom_append 0 false false ts⟩

omit hcut in
theorem memberSplit_suffix (ts : List Token) : (memberSplit ts).2 <:+ ts :=
  ⟨_, memberSplitFrom_append 0 false false ts⟩

omit hcut in
theorem head?_memberSplit (t : Token) (rest : List Token) :
    (memberSplit (t :: rest)).1.head? = some t := by
  have hp := prefix_memberSplit (t :: rest)
  cases hg : (memberSplit (t :: rest)).1 with
  | nil => exact absurd hg (memberSplit_fst_ne_nil t rest)
  | cons x g =>
    rw [hg, List.cons_prefix_cons] at hp
    rw [hp.1, List.head?_cons]

theorem membersOf_congr {trivia : List Token} (htrivia : Orderly src trivia) (owner : Bytes)
    (boundary : Nat) (h : Orderly src ts) :
    membersOf cut owner trivia boundary ts = membersOf src.slice owner trivia boundary ts := by
  induction hn : ts.length using Nat.strongRecOn generalizing ts boundary with
  | _ n ih =>
    cases ts with
    | nil => rw [membersOf, membersOf]
    | cons t rest =>
      have hlt := length_memberSplit_lt t rest
      have hgroup := h.sublist (prefix_memberSplit (t :: rest)).sublist
      have hafter := h.sublist (memberSplit_suffix (t :: rest)).sublist
      obtain ⟨b, hb⟩ : ∃ b, (memberSplit (t :: rest)).1.getLast? = some b :=
        ⟨_, List.getLast?_eq_some_getLast (memberSplit_fst_ne_nil t rest)⟩
      -- the text of the member is cut from in front of its first token to the end of its last one
      have hmem := List.mem_of_getLast? hb
      have hle := hgroup.start_le_stop (head?_memberSplit t rest) hmem
      have hstop := hgroup.within b hmem
      have hstart : textStart src.slice trivia boundary t.start ≤ t.start := by
        rcases textStart_cases src trivia boundary t.start with heq | ⟨c, -, -, hc, heq⟩
        · omega
        · have : c.start ≤ c.stop := Nat.le_add_right _ _
          omega
      simp only [List.length_cons] at hn
      rw [membersOf, membersOf, ih rest.length (by omega) _ (h.sublist (List.sublist_cons_self t rest)) rfl]
      simp only [hb, Option.map_some, Option.getD_some, memberOf_congr hcut owner hgroup,
        textStart_congr hcut htrivia, hcut _ _ (Nat.le_trans hstart hle) hstop, columnOf,
        hcut 0 _ (Nat.zero_le _) (Nat.le_trans (Nat.le_trans hstart hle) hstop),
        ih _ (by omega) b.stop hafter rfl]

theorem classOf_congr {trivia : List Token} (htrivia : Orderly src trivia) (before : List Token)
    (keyword : Token) (h : Orderly src ts) :
    classOf cut trivia before keyword ts = classOf src.slice trivia before keyword ts := by
  have hhead : Orderly src (if startsWith ts.tail "<" then (splitPair "<" ">" ts.tail).2 else ts.tail) := by
    split
    · exact h.sublist ((splitPair_suffix _ _ _).sublist.trans (List.tail_sublist ts))
    · exact h.sublist (List.tail_sublist ts)
  unfold classOf
  dsimp only
  generalize (if startsWith ts.tail "<" then (splitPair "<" ">" ts.tail).2 else ts.tail) = rest at hhead ⊢
  rw [flat_congr hcut (hhead.sublist ((List.takeWhile_sublist _).trans (List.tail_sublist rest)))]
  cases hbrace : rest.dropWhile (!·.is Bytes.leftBrace) with
  | nil => rfl
  | cons brace inner =>
    have hbody := hhead.sublist (hbrace ▸ List.dropWhile_sublist _ : (brace :: inner).Sublist rest)
    simp only [membersOf_congr hcut htrivia _ _ (hbody.sublist ((List.dropLast_sublist _).trans
      ((List.tail_sublist _).trans (splitPair_fst_sublist _ _ _))))]

/-- **Only offsets in order and inside the source are cut**, whatever the source is. -/
theorem outlineFrom_congr {trivia : List Token} (htrivia : Orderly src trivia) (found : Outline)
    (before : List Token) (h : Orderly src ts) :
    outlineFrom cut trivia found before ts = outlineFrom src.slice trivia found before ts := by
  induction hn : ts.length using Nat.strongRecOn generalizing ts found before with
  | _ n ih =>
    cases ts with
    | nil => rw [outlineFrom, outlineFrom]
    | cons t rest =>
      have hrest := h.sublist (List.sublist_cons_self t rest)
      have hdrop : ∀ k found before, outlineFrom cut trivia found before (rest.drop k)
          = outlineFrom src.slice trivia found before (rest.drop k) := by
        intro k found before
        refine ih _ ?_ found before (hrest.sublist (List.drop_sublist k rest)) rfl
        rw [List.length_drop, ← hn, List.length_cons]
        omega
      rw [outlineFrom, outlineFrom]
      have hnext := hdrop 0 found (t :: before)
      rw [List.drop_zero] at hnext
      simp only [flat_congr hcut (hrest.sublist (List.takeWhile_sublist _)), hdrop,
        classOf_congr hcut htrivia before t hrest, hnext]

end

/-! ## Nested brackets are read -/

section

variable (cut : Nat → Nat → Bytes) {ts : List Token}

theorem accessorsOf_ok {stack : List Bytes} (h : unclosed stack ts = some []) :
    ∃ as, accessorsOf cut ts = .ok as := by
  induction hn : ts.length using Nat.strongRecOn generalizing ts stack with
  | _ n ih =>
    have hrec : ∀ {ts' : List Token}, ts' <:+ ts → ts'.length < n →
        ∃ as, accessorsOf cut ts' = .ok as := by
      intro ts' hs hlen
      obtain ⟨stack', hstack⟩ := unclosed_suffix h hs
      exact ih _ hlen hstack rfl
    have hs : (attributesSplit ts).2.dropWhile isAccessorModifier <:+ ts :=
      (List.dropWhile_suffix _).trans (attributesSplit_suffix ts)
    rw [accessorsOf_eq]
    match hrest : (attributesSplit ts).2.dropWhile isAccessorModifier with
    | [] => simp only [hrest]; exact ⟨_, rfl⟩
    | [keyword] => simp only [hrest]; exact ⟨_, rfl⟩
    | keyword :: next :: after =>
      rw [hrest] at hs
      have hlen := hs.length_le
      have hnext : next :: after <:+ ts := (List.suffix_cons _ _).trans hs
      have hafter : after <:+ ts := (List.suffix_cons _ _).trans hnext
      have hskip : (after.dropWhile (!·.is ";")).tail <:+ after :=
        (List.tail_suffix _).trans (List.dropWhile_suffix _)
      have hskiplen := hskip.length_le
      simp only [List.length_cons] at hlen
      simp only [hrest]
      split
      · obtain ⟨as, has⟩ := hrec hafter (by omega)
        exact ⟨_, by rw [has]; rfl⟩
      split
      · rename_i hbrace
        obtain ⟨stack', hstack⟩ := unclosed_suffix h hnext
        obtain ⟨inner, u, rest, rfl, -, -, hpair⟩ := exists_block hbrace hstack
        have hrest : rest <:+ inner ++ u :: rest := ⟨inner ++ [u], by simp⟩
        have hrestlen := hrest.length_le
        obtain ⟨as, has⟩ := hrec (hrest.trans hafter) (by omega)
        obtain ⟨text, htext⟩ : ∃ text, blockText cut (next :: inner ++ [u]) = .ok text := by
          cases inner with
          | nil => exact ⟨_, rfl⟩
          | cons x inner => exact ⟨_, rfl⟩
        rw [hpair, htext, has]
        exact ⟨_, rfl⟩
      split
      · obtain ⟨as, has⟩ := hrec (hskip.trans hafter) (by omega)
        exact ⟨_, by rw [has]; rfl⟩
      · obtain ⟨as, has⟩ := hrec hnext (by simp only [List.length_cons]; omega)
        exact ⟨_, by rw [has]; rfl⟩

theorem typedMember_ok (m : Member) {stack : List Bytes} (h : unclosed stack ts = some []) :
    ∃ m', typedMember cut m ts = .ok m' := by
  unfold typedMember
  cases htype : afterType? ts with
  | none => exact ⟨_, rfl⟩
  | some after =>
    cases after with
    | nil => exact ⟨_, rfl⟩
    | cons word rest =>
      obtain ⟨type, hts, -⟩ := afterType?_suffix htype
      have hrest : rest <:+ ts := (List.suffix_cons word rest).trans ⟨type, hts.symm⟩
      have hafter : afterName word rest <:+ ts := (afterName_suffix word rest).trans hrest
      dsimp only
      split
      · exact ⟨_, rfl⟩
      split
      · exact ⟨_, rfl⟩
      rw [← afterName]
      split
      · obtain ⟨stack', hstack⟩ := unclosed_suffix h ((splitPair_suffix "(" ")" _).trans hafter)
        obtain ⟨body, hbody⟩ := bodyOf_ok cut hstack
        rw [hbody]
        exact ⟨_, rfl⟩
      split
      · rename_i hbrace
        obtain ⟨stack', hstack⟩ := unclosed_suffix h hafter
        cases hname : afterName word rest with
        | nil => rw [hname] at hbrace; cases hbrace
        | cons t after =>
          rw [hname] at hbrace hstack
          obtain ⟨inner, u, rest', rfl, hinner, -, hpair⟩ := exists_block hbrace hstack
          obtain ⟨as, has⟩ := accessorsOf_ok cut hinner
          rw [hpair, List.cons_append, List.tail_cons, List.dropLast_concat, has]
          exact ⟨_, rfl⟩
      split
      · exact ⟨_, rfl⟩
      · exact ⟨_, rfl⟩

theorem memberOf_ok (owner : Bytes) (h : Nested ts) : ∃ m, memberOf cut owner ts = .ok m := by
  have hs : (attributesSplit ts).2.dropWhile isModifier <:+ ts :=
    (List.dropWhile_suffix _).trans (attributesSplit_suffix ts)
  unfold memberOf
  cases hrest : (attributesSplit ts).2.dropWhile isModifier with
  | nil => simp only [hrest]; exact ⟨_, rfl⟩
  | cons t rest =>
    rw [hrest] at hs
    simp only [hrest]
    split
    · exact ⟨_, rfl⟩
    split
    · exact ⟨_, rfl⟩
    split
    · exact ⟨_, rfl⟩
    split
    · obtain ⟨stack, hstack⟩ := h.suffix ((splitPair_suffix "(" ")" rest).trans
        ((List.suffix_cons t rest).trans hs))
      obtain ⟨body, hbody⟩ := bodyOf_ok cut hstack
      rw [hbody]
      exact ⟨_, rfl⟩
    · obtain ⟨stack, hstack⟩ := h.suffix hs
      exact typedMember_ok cut _ hstack

theorem membersOf_ok (owner : Bytes) (trivia : List Token) (boundary : Nat) (h : Nested ts) :
    ∃ ms, membersOf cut owner trivia boundary ts = .ok ms := by
  induction hn : ts.length using Nat.strongRecOn generalizing ts boundary with
  | _ n ih =>
    cases ts with
    | nil => exact ⟨[], by rw [membersOf]⟩
    | cons t rest =>
      have hlt := length_memberSplit_lt t rest
      simp only [List.length_cons] at hn
      rw [membersOf]
      split
      · rename_i hsemi
        have hplain := plain_of_is hsemi (by decide)
        rw [Nested, unclosed_plain _ _ hplain.1 hplain.2] at h
        exact ih rest.length (by omega) t.stop h rfl
      · obtain ⟨hgroup, hafter⟩ := memberSplit_nested h
        obtain ⟨m, hm⟩ := memberOf_ok cut owner hgroup
        obtain ⟨ms, hms⟩ := ih _ (by omega)
          (((memberSplit (t :: rest)).1.getLast?.map (·.stop)).getD t.stop) hafter rfl
        simp only [hm, hms, bind, Except.bind]
        exact ⟨_, rfl⟩

theorem classOf_ok (trivia before : List Token) (keyword : Token) {stack : List Bytes}
    (h : unclosed stack ts = some []) : ∃ c, classOf cut trivia before keyword ts = .ok c := by
  have hhead : (if startsWith ts.tail "<" then (splitPair "<" ">" ts.tail).2 else ts.tail) <:+ ts := by
    split
    · exact (splitPair_suffix _ _ _).trans (List.tail_suffix ts)
    · exact List.tail_suffix ts
  unfold classOf
  dsimp only
  generalize (if startsWith ts.tail "<" then (splitPair "<" ">" ts.tail).2 else ts.tail) = rest at hhead ⊢
  cases hblock : rest.dropWhile (!·.is Bytes.leftBrace) with
  | nil => exact ⟨_, rfl⟩
  | cons brace inner =>
    have hs : brace :: inner <:+ ts := hblock ▸ (List.dropWhile_suffix _).trans hhead
    have hbrace := List.head?_dropWhile_not (!·.is Bytes.leftBrace) rest
    rw [hblock] at hbrace
    obtain ⟨stack', hstack⟩ := unclosed_suffix h hs
    obtain ⟨body, u, rest', rfl, hbody, -, hpair⟩ := exists_block (by simpa using hbrace) hstack
    obtain ⟨ms, hms⟩ := membersOf_ok cut (headText ts) trivia brace.stop hbody
    dsimp only
    rw [hpair, List.cons_append, List.tail_cons, List.dropLast_concat, hms]
    exact ⟨_, rfl⟩

theorem outlineFrom_ok (trivia : List Token) (found : Outline) (before : List Token)
    {stack : List Bytes} (h : unclosed stack ts = some []) :
    ∃ o, outlineFrom cut trivia found before ts = .ok o := by
  induction hn : ts.length using Nat.strongRecOn generalizing ts found before stack with
  | _ n ih =>
    cases ts with
    | nil => exact ⟨found, by rw [outlineFrom]⟩
    | cons t rest =>
      have hdrop : ∀ k found before, ∃ o, outlineFrom cut trivia found before (rest.drop k) = .ok o := by
        intro k found before
        obtain ⟨stack', hstack⟩ := unclosed_suffix h ((List.drop_suffix k rest).trans (List.suffix_cons t rest))
        refine ih _ ?_ found before hstack rfl
        rw [List.length_drop, ← hn, List.length_cons]
        omega
      rw [outlineFrom]
      split
      · exact hdrop _ _ _
      split
      · exact hdrop _ _ _
      split
      · obtain ⟨stack', hstack⟩ := unclosed_suffix h (List.suffix_cons t rest)
        obtain ⟨c, hc⟩ := classOf_ok cut trivia before t hstack
        exact ⟨_, by rw [hc]; rfl⟩
      · exact hdrop 0 found (t :: before)

end

/-- **Sources with nested brackets are read**, whatever their other tokens are, and all that is cut out
of them lies between offsets that are in order and inside the source. -/
theorem outline_safe {src : Bytes} (h : Nested (tokens src)) :
    ∃ o, outline src = .ok o ∧ ∀ cut, Agrees src cut →
      outlineFrom cut ((tokens src).filter (·.isTrivia)) {} [] ((tokens src).filter (!·.isTrivia)) = .ok o := by
  have hsolid : unclosed [] (solid (tokens src)) = some [] := by rw [unclosed_solid]; exact h
  obtain ⟨o, ho⟩ := outlineFrom_ok src.slice ((tokens src).filter (·.isTrivia)) {} [] hsolid
  refine ⟨o, ho, fun cut hcut => ?_⟩
  rw [outlineFrom_congr hcut ((orderly_tokens src).sublist List.filter_sublist) {} []
    ((orderly_tokens src).sublist List.filter_sublist)]
  exact ho

/-- Nested brackets, and among them marks out of place, names that are missing and literals that are not
closed. -/
def scattered : Bytes :=
  "namespace ; class A : < \x7b = => ; int P \x7b get \x7b > ' \n \x7d set => ; ( ) \x7d F G ( ; , ) \" \n \x7b \x7d [ ] \x7d \" "

theorem outline_safe_scattered : Nested (tokens scattered) ∧
    ∃ o, outline scattered = .ok o ∧ ∀ cut, Agrees scattered cut →
      outlineFrom cut ((tokens scattered).filter (·.isTrivia)) {} []
        ((tokens scattered).filter (!·.isTrivia)) = .ok o := by
  have hnest : Nested (tokens scattered) := by
    rw [scattered, Bytes.ofString_ofList]
    decide +kernel
  exact ⟨hnest, outline_safe hnest⟩

end Flowsmith.Source
