import Flowsmith.Proofs.Source.Collapse
import Flowsmith.Proofs.Source.Declaration

/-!
# Tokens of the parts of a source

A part of a source that is carried over begins and ends with tokens. Taken alone it has the same
tokens again.

* `solid` : the tokens that declarations are read from;
* `Piece` : a text whose tokens are those of a part of a source;
* `piece_slice` : the text between two offsets;
* `piece_raw` : the text of a group.
-/

namespace Flowsmith.Source

/-! ## Tokens in other places -/

def Token.shift (k : Nat) (t : Token) : Token := { t with start := t.start + k }

theorem tokensFrom_shift (s : Bytes) (pos k : Nat) (fresh : Bool) :
    tokensFrom (pos + k) fresh s = (tokensFrom pos fresh s).map (Token.shift k) := by
  match s with
  | [] => rw [tokensFrom_nil, tokensFrom_nil]; rfl
  | c :: s =>
    rcases tokensFrom_cases pos fresh c s with ⟨hc, heq⟩ | ⟨hc, kind, b, r, rfl, hlex, heq⟩
    · rcases tokensFrom_cases (pos + k) fresh c s with ⟨_, heq'⟩ | ⟨hc', _⟩
      · rw [heq, heq', Nat.add_right_comm]
        exact tokensFrom_shift s (pos + 1) k _
      · rw [hc] at hc'
        cases hc'
    · rw [heq, tokensFrom_token (pos + k) fresh hc hlex, Nat.add_right_comm,
        tokensFrom_shift r (pos + (c :: b).length) k false]
      rfl
termination_by s.length

def solid (ts : List Token) : List Token := ts.filter (!·.isTrivia)

theorem solid_append (xs ys : List Token) : solid (xs ++ ys) = solid xs ++ solid ys :=
  List.filter_append _ _

theorem mem_solid {t : Token} {ts : List Token} : t ∈ solid ts ↔ t ∈ ts ∧ t.isTrivia = false := by
  simp [solid]

/-- Comments and preprocessor lines are no brackets. -/
theorem unclosed_solid (stack : List Bytes) (ts : List Token) :
    unclosed stack (solid ts) = unclosed stack ts := by
  induction ts generalizing stack with
  | nil => rfl
  | cons t ts ih =>
    by_cases ht : t.isTrivia = true
    · have hplain : ∀ w, t.is w = false := by
        intro w
        unfold Token.isTrivia at ht
        unfold Token.is
        cases hkind : t.kind <;> simp [hkind] at ht ⊢
      rw [solid, List.filter_cons_of_neg (by simp [ht]), ← solid, ih]
      exact (unclosed_plain stack ts (by simp [Token.closer?, hplain]) (by simp [closes, hplain])).symm
    · rw [solid, List.filter_cons_of_pos (by simp [ht]), ← solid]
      simp only [unclosed, ih]

/-! ## What the scanner knows of a token -/

theorem exists_lexeme {s : Bytes} {pos : Nat} {fresh : Bool} {t : Token}
    (ht : t ∈ tokensFrom pos fresh s) :
    ∃ fresh' c b r, t.text = c :: b ∧ isBlankByte c = false ∧
      lexeme fresh' c (b ++ r) = (t.kind, b.length) := by
  match s with
  | [] => rw [tokensFrom_nil] at ht; cases ht
  | c :: s =>
    rcases tokensFrom_cases pos fresh c s with ⟨_, heq⟩ | ⟨hc, kind, b, r, rfl, hlex, heq⟩
    · rw [heq] at ht
      exact exists_lexeme ht
    · rw [heq] at ht
      rcases List.mem_cons.1 ht with rfl | ht
      · exact ⟨fresh, c, b, r, rfl, hc, hlex⟩
      · exact exists_lexeme ht
termination_by s.length

theorem beginsWord_of_lexeme {fresh : Bool} {c : UInt8} {s : Bytes} {k : Nat}
    (h : lexeme fresh c s = (.word, k)) : beginsWord c = true := by
  cases lexed_of_lexeme h with
  | verbatim hc =>
    rw [hc]
    rfl
  | word hstart =>
    unfold beginsWord
    by_cases hge : 0x80 ≤ c
    · simp [hge]
    · rw [decode_of_lt s (UInt8.not_le.1 hge)] at hstart
      simp [hstart]

theorem isName_of_mem {s : Bytes} {pos : Nat} {fresh : Bool} {t : Token}
    (ht : t ∈ tokensFrom pos fresh s) (hw : t.isWord = true) : t.isName = true := by
  obtain ⟨fresh', c, b, r, htext, -, hlex⟩ := exists_lexeme ht
  have hkind : t.kind = .word := by simpa [Token.isWord] using hw
  rw [hkind] at hlex
  simp [Token.isName, hw, htext, beginsWord_of_lexeme hlex]

/-- A token that is no comment is closed when it is no open literal. -/
theorem textEnds_of_solid {s : Bytes} {pos : Nat} {fresh : Bool} {t : Token}
    (ht : t ∈ tokensFrom pos fresh s) (hs : t.isTrivia = false) (hends : literalEnds t.text = true) :
    textEnds t.text = true := by
  obtain ⟨fresh', c, b, r, htext, -, hlex⟩ := exists_lexeme ht
  unfold textEnds
  rw [hends, Bool.true_and, Bool.or_eq_true, bne_iff_ne]
  refine Or.inl fun hopen => ?_
  rw [htext] at hopen
  obtain ⟨rfl, hb⟩ := List.cons.inj hopen
  cases b with
  | nil => cases hb
  | cons d b =>
    obtain ⟨rfl, -⟩ := List.cons.inj hb
    have hkind : t.kind = .comment := (Prod.mk.inj hlex).1.symm
    simp [Token.isTrivia, hkind] at hs

/-! ## Pieces of a source -/

/-- A text at an offset with these tokens. All of its tokens are closed; it is not known what precedes
it on its line. -/
def Piece (pos : Nat) (text : Bytes) (ts : List Token) : Prop :=
  ∃ fresh, solid (tokensFrom pos fresh text) = ts ∧
    ∀ t ∈ tokensFrom pos fresh text, textEnds t.text = true

theorem filter_within {pre ts post : List Token} {x y : Nat}
    (hpos : ∀ t ∈ pre ++ ts ++ post, t.start < t.stop) (hpre : ∀ t ∈ pre, t.stop ≤ x)
    (hts : ∀ t ∈ ts, x ≤ t.start ∧ t.stop ≤ y) (hpost : ∀ t ∈ post, y ≤ t.start) :
    (pre ++ ts ++ post).filter (Token.within x y) = ts := by
  rw [List.filter_append, List.filter_append]
  have h₁ : pre.filter (Token.within x y) = [] := by
    refine List.filter_eq_nil_iff.2 fun t ht => ?_
    have h := hpos t (by simp [ht])
    have h' := hpre t ht
    simp only [Token.within, Bool.and_eq_true, decide_eq_true_eq]
    omega
  have h₂ : ts.filter (Token.within x y) = ts := by
    refine List.filter_eq_self.2 fun t ht => ?_
    simp [Token.within, hts t ht]
  have h₃ : post.filter (Token.within x y) = [] := by
    refine List.filter_eq_nil_iff.2 fun t ht => ?_
    have h := hpos t (by simp [ht])
    have h' := hpost t ht
    simp only [Token.within, Bool.and_eq_true, decide_eq_true_eq]
    omega
  rw [h₁, h₂, h₃]
  simp

/-- **The text between two offsets.** It has the tokens between them, when a token ends or begins at
its end. -/
theorem piece_slice {src : Bytes} {pre ts post : List Token} {x y : Nat}
    (hends : ∀ t ∈ tokens src, t.isTerminated = true) (hsolid : solid (tokens src) = pre ++ ts ++ post)
    (hx : Clean (tokens src) x) (hpre : ∀ t ∈ pre, t.stop ≤ x) (hts : ∀ t ∈ ts, x ≤ t.start ∧ t.stop ≤ y)
    (hxy : x ≤ y) (hpost : ∀ t ∈ post, y ≤ t.start) (hy : ∃ t ∈ solid (tokens src), t.stop = y ∨ t.start = y) :
    Piece x (src.slice x y) ts := by
  obtain ⟨last, hlast, hedge⟩ := hy
  obtain ⟨hmem, htrivia⟩ := mem_solid.1 hlast
  have hclean : Clean (tokens src) y := by
    rcases hedge with rfl | rfl
    · exact (clean_of_mem hmem).2
    · exact (clean_of_mem hmem).1
  have hclosed : ∀ t ∈ tokens src, x ≤ t.start → t.stop ≤ y → textEnds t.text = true := by
    intro t ht _ hstop
    by_cases hsolidT : t.isTrivia = false
    · exact textEnds_of_solid ht hsolidT (hends t ht)
    · have hne : t ≠ last := by
        rintro rfl
        exact hsolidT htrivia
      have hpt := (le_start_of_mem ht).2
      have hpl := (le_start_of_mem hmem).2
      refine textEnds_of_followed ht hmem ?_ (hends t ht)
      rcases sorted_total (sorted_tokensFrom src 0 true) ht hmem hne with h | h
      · exact h
      · omega
  obtain ⟨fresh, hslice⟩ := tokensFrom_slice (Nat.zero_le x) hxy hx hclean hclosed
  rw [Nat.sub_zero, Nat.sub_zero] at hslice
  refine ⟨fresh, ?_, fun t ht => ?_⟩
  · have hcomm : solid ((tokensFrom 0 true src).filter (Token.within x y))
        = (solid (tokens src)).filter (Token.within x y) := by
      simp only [solid, tokens, List.filter_filter, Bool.and_comm]
    rw [hslice, hcomm, hsolid]
    refine filter_within (fun t ht => ?_) hpre hts hpost
    rw [← hsolid] at ht
    exact (le_start_of_mem (mem_solid.1 ht).1).2
  · rw [hslice] at ht
    obtain ⟨ht, hwithin⟩ := List.mem_filter.1 ht
    simp only [Token.within, Bool.and_eq_true, decide_eq_true_eq] at hwithin
    exact hclosed t ht hwithin.1 hwithin.2

theorem sorted_solid (src : Bytes) : (solid (tokens src)).Pairwise fun a b => a.stop ≤ b.start :=
  (sorted_tokensFrom src 0 true).filter _

/-- What follows a group of tokens, what precedes it, and what it holds. -/
theorem sorted_parts {pre ts post : List Token} {a b : Token}
    (hs : (pre ++ ts ++ post).Pairwise fun a b => a.stop ≤ b.start)
    (hpos : ∀ t ∈ pre ++ ts ++ post, t.start < t.stop) (ha : ts.head? = some a)
    (hb : ts.getLast? = some b) :
    (∀ t ∈ pre, t.stop ≤ a.start) ∧ (∀ t ∈ ts, a.start ≤ t.start ∧ t.stop ≤ b.stop) ∧
      ∀ t ∈ post, b.stop ≤ t.start := by
  rw [List.pairwise_append, List.pairwise_append] at hs
  obtain ⟨⟨-, hts, hpre⟩, -, hpost⟩ := hs
  have hamem : a ∈ ts := List.mem_of_head? ha
  have hbmem : b ∈ ts := List.mem_of_getLast? hb
  refine ⟨fun t ht => hpre t ht a hamem, fun t ht => ⟨?_, ?_⟩,
    fun t ht => hpost b (List.mem_append_right _ hbmem) t ht⟩
  · obtain ⟨rest, rfl⟩ := List.head?_eq_some_iff.1 ha
    rcases List.mem_cons.1 ht with rfl | ht
    · exact Nat.le_refl _
    · have := (List.pairwise_cons.1 hts).1 t ht
      have := hpos a (by simp)
      omega
  · obtain ⟨front, rfl⟩ := List.getLast?_eq_some_iff.1 hb
    rcases List.mem_append.1 ht with ht | ht
    · have := (List.pairwise_append.1 hts).2.2 t ht b (by simp)
      have := hpos b (by simp)
      omega
    · exact Nat.le_of_eq (congrArg Token.stop (List.mem_singleton.1 ht))

theorem mem_of_solid {src : Bytes} {ts : List Token} (hsolid : solid (tokens src) = ts) {t : Token}
    (ht : t ∈ ts) : t ∈ tokens src := (mem_solid.1 (hsolid ▸ ht)).1

theorem start_lt_of_solid {src : Bytes} {ts : List Token} (hsolid : solid (tokens src) = ts) {t : Token}
    (ht : t ∈ ts) : t.start < t.stop := (le_start_of_mem (mem_of_solid hsolid ht)).2

/-- `sorted_parts` for the tokens of a source. -/
theorem solid_bounds {src : Bytes} {pre ts post : List Token} {a b : Token}
    (hsolid : solid (tokens src) = pre ++ ts ++ post) (ha : ts.head? = some a) (hb : ts.getLast? = some b) :
    (∀ t ∈ pre, t.stop ≤ a.start) ∧ (∀ t ∈ ts, a.start ≤ t.start ∧ t.stop ≤ b.stop) ∧
      ∀ t ∈ post, b.stop ≤ t.start :=
  sorted_parts (hsolid ▸ sorted_solid src) (fun _ => start_lt_of_solid hsolid) ha hb

/-- The tokens `ts` of a source stand between `pre` and `post`, and `boundary` lies in front of them. -/
structure Framed (src : Bytes) (pre ts post : List Token) (boundary : Nat) : Prop where
  solid_eq : solid (tokens src) = pre ++ ts ++ post
  before : ∀ t ∈ pre, t.stop ≤ boundary
  after : ∀ t ∈ ts, boundary ≤ t.start

/-- The boundary is the end of what stands in front. -/
theorem Framed.of_solid {src : Bytes} {pre g ts post : List Token} {b : Token}
    (hsolid : solid (tokens src) = pre ++ g ++ (ts ++ post)) (hb : g.getLast? = some b) :
    Framed src (pre ++ g) ts post b.stop := by
  obtain ⟨a, ha⟩ : ∃ a, g.head? = some a := by
    cases g with
    | nil => cases hb
    | cons a g => exact ⟨a, rfl⟩
  obtain ⟨hpre, hin, hpost⟩ := solid_bounds hsolid ha hb
  refine ⟨by rw [hsolid, List.append_assoc (pre ++ g)], fun t ht => ?_,
    fun t ht => hpost t (List.mem_append_left _ ht)⟩
  rcases List.mem_append.1 ht with ht | ht
  · have := hpre t ht
    have := (hin a (List.mem_of_head? ha)).2
    have := start_lt_of_solid hsolid (t := a) (by simp [List.mem_of_head? ha])
    omega
  · exact (hin t ht).2

theorem Framed.next {src : Bytes} {pre g ts post : List Token} {boundary : Nat} {b : Token}
    (h : Framed src pre (g ++ ts) post boundary) (hb : g.getLast? = some b) :
    Framed src (pre ++ g) ts post b.stop := .of_solid (by simp [h.solid_eq]) hb

/-- **The text of a group.** -/
theorem piece_raw {src : Bytes} {pre ts post : List Token} {a : Token}
    (hends : ∀ t ∈ tokens src, t.isTerminated = true) (hsolid : solid (tokens src) = pre ++ ts ++ post)
    (ha : ts.head? = some a) : Piece a.start (raw src.slice ts) ts := by
  obtain ⟨b, hb⟩ : ∃ b, ts.getLast? = some b := by
    rw [← Option.isSome_iff_exists, List.getLast?_isSome]
    rintro rfl
    cases ha
  obtain ⟨hpre, hts, hpost⟩ := solid_bounds hsolid ha hb
  have haMem : a ∈ pre ++ ts ++ post := by simp [List.mem_of_head? ha]
  have hbMem : b ∈ pre ++ ts ++ post := by simp [List.mem_of_getLast? hb]
  have hraw : raw src.slice ts = src.slice a.start b.stop := by
    unfold raw
    rw [ha, hb]
  rw [hraw]
  have hab := hts b (List.mem_of_getLast? hb)
  have hbpos := start_lt_of_solid hsolid hbMem
  exact piece_slice hends hsolid (clean_of_mem (mem_of_solid hsolid haMem)).1 hpre hts (by omega) hpost
    ⟨b, by rw [hsolid]; exact hbMem, Or.inl rfl⟩

/-- A piece is the same at the beginning of a line unless it begins with a number sign. -/
theorem Piece.fresh {pos : Nat} {text : Bytes} {ts : List Token} (h : Piece pos text ts)
    (hsharp : ∀ t, ts.head? = some t → t.is "#" = false) :
    solid (tokensFrom pos true text) = ts ∧ ∀ t ∈ tokensFrom pos true text, textEnds t.text = true := by
  obtain ⟨fresh, rfl, hclosed⟩ := h
  have hfresh : tokensFrom pos fresh text = tokensFrom pos true text := by
    refine tokensFrom_fresh text pos fresh fun t ht => ?_
    cases htrivia : t.isTrivia with
    | true =>
      simp only [Token.isTrivia, Bool.or_eq_true, beq_iff_eq] at htrivia
      rcases htrivia with hk | hk <;> simp [Token.is, hk]
    | false =>
      refine hsharp t ?_
      obtain ⟨rest, hrest⟩ := List.head?_eq_some_iff.1 ht
      rw [hrest, solid, List.filter_cons_of_pos (by simp [htrivia])]
      rfl
  rw [← hfresh]
  exact ⟨rfl, hclosed⟩

/-! ## Pieces with collapsed blanks -/

/-- A piece that begins with a token that is no mark of a blank begins with no blank. -/
theorem Piece.blankSize {pos : Nat} {text : Bytes} {t : Token} {ts : List Token}
    (h : Piece pos text (t :: ts)) (hstart : t.start = pos) (ht : t.isJunk = false) :
    ∃ c s, text = c :: s ∧ Text.blankSize (c :: s) = 0 := by
  obtain ⟨fresh, hsolid, -⟩ := h
  have hmem : t ∈ tokensFrom pos fresh text := by
    have : t ∈ solid (tokensFrom pos fresh text) := by simp [hsolid]
    exact (mem_solid.1 this).1
  cases text with
  | nil => rw [tokensFrom_nil] at hmem; cases hmem
  | cons c s =>
    refine ⟨c, s, rfl, ?_⟩
    rcases tokensFrom_cases pos fresh c s with ⟨_, heq⟩ | ⟨hc, kind, b, r, rfl, hlex, heq⟩
    · rw [heq] at hmem
      have := (le_start_of_mem hmem).1
      omega
    · rw [heq] at hmem
      rcases List.mem_cons.1 hmem with rfl | hmem
      · cases hsize : Text.blankSize (c :: (b ++ r)) with
        | zero => rfl
        | succ k =>
          exfalso
          obtain ⟨e, he, hs⟩ := drop_of_blankSize hsize
          have hform := isBlankForm_of_mem he
          match e, hform, he with
          | [x], hx, he =>
            obtain ⟨rfl, -⟩ := List.cons.inj hs
            rw [show isBlankByte c = true from hx] at hc
            cases hc
          | x :: y :: e, _, he =>
            obtain ⟨rfl, hrest⟩ := List.cons.inj hs
            obtain ⟨hge, hmark⟩ := lexeme_unit he rfl fresh ((b ++ r).drop k)
            have hrest' : b ++ r = y :: e ++ (b ++ r).drop k := hrest
            rw [← hrest', hlex] at hmark
            obtain ⟨rfl, -⟩ := Prod.mk.inj hmark
            simp [Token.isJunk, hge] at ht
      · have := (le_start_of_mem hmem).1
        simp only [List.length_cons] at this
        omega

theorem Thin.not_isTrivia {ts ts' : List Token} (h : Thin ts ts') (hts : ∀ t ∈ ts, t.isTrivia = false) :
    ∀ t ∈ ts', t.isTrivia = false := by
  induction h with
  | nil => exact hts
  | keep ha _ ih =>
    intro t ht
    rcases List.mem_cons.1 ht with rfl | ht
    · exact ha.isTrivia.trans (hts _ List.mem_cons_self)
    · exact ih (fun x hx => hts x (List.mem_cons_of_mem _ hx)) t ht
  | drop _ _ ih => exact ih fun x hx => hts x (List.mem_cons_of_mem _ hx)

theorem solid_eq_self {ts : List Token} (h : ∀ t ∈ ts, t.isTrivia = false) : solid ts = ts :=
  List.filter_eq_self.2 fun t ht => by simp [h t ht]

/-- **A piece with collapsed blanks**, which holds no comments, in the middle of a line. -/
theorem Piece.collapse {pos : Nat} {text : Bytes} {t : Token} {ts : List Token}
    (h : Piece pos text (t :: ts)) (hstart : t.start = pos) (ht : t.isJunk = false)
    (hsharp : t.is "#" = false) (hplain : (tokens text).all (!·.isTrivia) = true) (pos' : Nat) :
    Thin (t :: ts) (tokensFrom pos' false text.collapse) ∧
      ∀ x ∈ tokensFrom pos' false text.collapse, textEnds x.text = true ∧ x.isTrivia = false := by
  obtain ⟨hsolid, hclosed⟩ := h.fresh fun x hx => by
    cases hx
    exact hsharp
  have htrivia : ∀ x ∈ tokensFrom pos true text, x.isTrivia = false := by
    intro x hx
    rw [← Nat.zero_add pos, tokensFrom_shift] at hx
    obtain ⟨y, hy, rfl⟩ := List.mem_map.1 hx
    simpa [Token.isTrivia, Token.shift] using List.all_eq_true.1 hplain y hy
  obtain ⟨c, s, rfl, hblank⟩ := h.blankSize hstart ht
  obtain ⟨hthin, hends⟩ := tokensFrom_respaced (respaced_collapse hblank) pos pos'
    (show Flags false true false from rfl) fun x hx => ⟨hclosed x hx, fun _ => htrivia x hx⟩
  rw [← hsolid, solid_eq_self htrivia]
  exact ⟨hthin, fun x hx => ⟨hends x hx, hthin.not_isTrivia htrivia x hx⟩⟩

/-! ## The extent of tokens -/

theorem head?_tokensFrom {c : UInt8} (s : Bytes) (pos : Nat) (fresh : Bool) (hc : isBlankByte c = false) :
    ∃ t, (tokensFrom pos fresh (c :: s)).head? = some t ∧ t.start = pos := by
  rcases tokensFrom_cases pos fresh c s with ⟨hc', _⟩ | ⟨_, kind, b, r, rfl, _, heq⟩
  · rw [hc] at hc'
    cases hc'
  · exact ⟨_, by rw [heq]; rfl, rfl⟩

theorem getLast?_tokensFrom {s : Bytes} {x : UInt8} (hx : s.getLast? = some x)
    (hblank : isBlankByte x = false) (pos : Nat) (fresh : Bool) :
    ∃ t, (tokensFrom pos fresh s).getLast? = some t ∧ t.stop = pos + s.length := by
  match s with
  | [] => cases hx
  | c :: s =>
    rcases tokensFrom_cases pos fresh c s with ⟨hc, heq⟩ | ⟨_, kind, b, r, rfl, _, heq⟩
    · cases s with
      | nil =>
        obtain rfl : c = x := Option.some.inj hx
        rw [hc] at hblank
        cases hblank
      | cons d s =>
        rw [List.getLast?_cons_cons] at hx
        obtain ⟨t, ht, hstop⟩ := getLast?_tokensFrom hx hblank (pos + 1) (fresh || c == Bytes.newline)
        refine ⟨t, by rw [heq, ht], ?_⟩
        rw [hstop, List.length_cons (a := c)]
        omega
    · rw [heq]
      cases r with
      | nil =>
        rw [tokensFrom_nil]
        exact ⟨_, rfl, by simp [Token.stop]⟩
      | cons d r =>
        have hx' : (d :: r).getLast? = some x := by
          rw [← List.cons_append, List.getLast?_append] at hx
          cases hlast : (d :: r).getLast? with
          | none => simp at hlast
          | some y =>
            rw [hlast] at hx
            exact hx
        obtain ⟨t, ht, hstop⟩ := getLast?_tokensFrom hx' hblank (pos + (c :: b).length) false
        refine ⟨t, ?_, ?_⟩
        · cases hts : tokensFrom (pos + (c :: b).length) false (d :: r) with
          | nil =>
            rw [hts] at ht
            cases ht
          | cons u us =>
            rw [hts] at ht
            rw [List.getLast?_cons_cons, ht]
        · rw [hstop]
          simp only [List.length_cons, List.length_append]
          omega
termination_by s.length

/-- The text of the tokens of a text that begins and ends with no blank. -/
theorem raw_tokensFrom {before after u : Bytes} {c x : UInt8} {s : Bytes} (hu : u = c :: s)
    (hc : isBlankByte c = false) (hx : u.getLast? = some x) (hblank : isBlankByte x = false)
    (fresh : Bool) : raw (Bytes.slice (before ++ u ++ after)) (tokensFrom before.length fresh u) = u := by
  obtain ⟨a, ha, hstart⟩ := head?_tokensFrom s before.length fresh hc
  obtain ⟨b, hb, hstop⟩ := getLast?_tokensFrom hx hblank before.length fresh
  rw [← hu] at ha
  unfold raw
  rw [ha, hb]
  simp only [hstart, hstop, Bytes.slice, Nat.add_sub_cancel_left]
  rw [List.append_assoc, List.drop_left, List.take_left]

end Flowsmith.Source
