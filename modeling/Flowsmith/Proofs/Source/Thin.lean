import Flowsmith.Proofs.Source.Nest
import Flowsmith.Proofs.Source.Retoken

/-!
# Declarations without the marks of blanks

The scanner reads a declaration alike from the tokens of two texts that differ in their blanks: what
it looks at are words and marks that both texts have.

* `splitPairFrom_thin`, `memberSplitFrom_thin` : the same groups and the same ends of members;
* `afterType?_thin`, `dottedName_thin` : the same types and names;
* `attributesSplit_thin` : the same attributes.
-/

namespace Flowsmith.Source

/-! ## Tokens -/

namespace Alike

variable {t t' : Token}

theorem is (h : Alike t t') (w : Bytes) : t'.is w = t.is w := by
  unfold Token.is
  rw [h.1]
  cases hk : (t.kind == TokenKind.word || t.kind == TokenKind.mark) with
  | false => rfl
  | true => rw [h.2 (by simpa using hk)]

theorem isWord (h : Alike t t') : t'.isWord = t.isWord := by
  unfold Token.isWord
  rw [h.1]

theorem isTrivia (h : Alike t t') : t'.isTrivia = t.isTrivia := by
  unfold Token.isTrivia
  rw [h.1]

theorem text (h : Alike t t') (hw : t.isWord = true) : t'.text = t.text :=
  h.2 (Or.inl (by simpa [Token.isWord] using hw))

theorem isWordOf (h : Alike t t') (words : List Bytes) : isWordOf words t' = isWordOf words t := by
  unfold Source.isWordOf
  cases hw : t.isWord with
  | false => rw [h.isWord, hw]; rfl
  | true => rw [h.isWord, hw, h.text hw]

theorem closer? (h : Alike t t') : t'.closer? = t.closer? := by
  unfold Token.closer?
  rw [h.is, h.is, h.is]

theorem closes (h : Alike t t') : closes t' = closes t := by
  unfold Source.closes
  rw [h.is, h.is, h.is]

theorem opens (h : Alike t t') : opens t' = opens t := by
  unfold Source.opens
  rw [h.is, h.is, h.is]

end Alike

theorem alike_refl (t : Token) : Alike t t := ⟨rfl, fun _ => rfl⟩

/-- A word or mark of the ASCII range. -/
def isPlainText (w : Bytes) : Bool := w.head?.all fun c => c < 0x80

/-- The marks of blanks are no marks that the scanner knows. -/
theorem Token.not_is_of_isJunk {t : Token} {w : Bytes} (h : t.isJunk = true)
    (hw : isPlainText w = true) : t.is w = false := by
  cases his : t.is w with
  | false => rfl
  | true =>
    simp only [Token.is, Bool.and_eq_true, beq_iff_eq] at his
    simp only [Token.isJunk, Bool.and_eq_true, Option.any_eq_true, decide_eq_true_eq] at h
    obtain ⟨-, c, hc, hge⟩ := h
    rw [his.2] at hc
    simp only [isPlainText, hc, Option.all_some, decide_eq_true_eq] at hw
    exact absurd hge (UInt8.not_le.2 hw)

theorem Token.not_isWord_of_isJunk {t : Token} (h : t.isJunk = true) : t.isWord = false := by
  simp only [Token.isJunk, Bool.and_eq_true, beq_iff_eq] at h
  simp [Token.isWord, h.1]

theorem Token.not_isTrivia_of_isJunk {t : Token} (h : t.isJunk = true) : t.isTrivia = false := by
  simp only [Token.isJunk, Bool.and_eq_true, beq_iff_eq] at h
  simp [Token.isTrivia, h.1]

theorem Token.not_isJunk_of_is {t : Token} {w : Bytes} (h : t.is w = true) (hw : isPlainText w = true) :
    t.isJunk = false := by
  cases hj : t.isJunk with
  | false => rfl
  | true =>
    rw [Token.not_is_of_isJunk hj hw] at h
    cases h

theorem Token.not_isJunk_of_isWord {t : Token} (h : t.isWord = true) : t.isJunk = false := by
  cases hj : t.isJunk with
  | false => rfl
  | true =>
    rw [Token.not_isWord_of_isJunk hj] at h
    cases h

theorem Token.closer?_of_isJunk {t : Token} (h : t.isJunk = true) : t.closer? = none := by
  unfold Token.closer?
  rw [Token.not_is_of_isJunk h (by decide), Token.not_is_of_isJunk h (by decide),
    Token.not_is_of_isJunk h (by decide)]
  rfl

theorem closes_of_isJunk {t : Token} (h : t.isJunk = true) : closes t = false := by
  unfold closes
  rw [Token.not_is_of_isJunk h (by decide), Token.not_is_of_isJunk h (by decide),
    Token.not_is_of_isJunk h (by decide)]
  rfl

/-! ## Lists of tokens -/

theorem thin_refl (ts : List Token) : Thin ts ts := by
  induction ts with
  | nil => exact .nil
  | cons t ts ih => exact .keep (alike_refl t) ih

theorem Thin.append {xs xs' ys ys' : List Token} (hx : Thin xs xs') (hy : Thin ys ys') :
    Thin (xs ++ ys) (xs' ++ ys') := by
  induction hx with
  | nil => exact hy
  | keep h _ ih => exact .keep h ih
  | drop h _ ih => exact .drop h ih

theorem Thin.append_inv {xs ys zs : List Token} (h : Thin (xs ++ ys) zs) :
    ∃ xs' ys', zs = xs' ++ ys' ∧ Thin xs xs' ∧ Thin ys ys' := by
  induction xs generalizing zs with
  | nil => exact ⟨[], zs, rfl, .nil, h⟩
  | cons x xs ih =>
    cases h with
    | keep hx h =>
      obtain ⟨xs', ys', rfl, hxs, hys⟩ := ih h
      exact ⟨_ :: xs', ys', rfl, .keep hx hxs, hys⟩
    | drop hx h =>
      obtain ⟨xs', ys', rfl, hxs, hys⟩ := ih h
      exact ⟨xs', ys', rfl, .drop hx hxs, hys⟩

theorem Thin.uncons {t : Token} {ts zs : List Token} (h : Thin (t :: ts) zs)
    (ht : t.isJunk = false) : ∃ t' ts', zs = t' :: ts' ∧ Alike t t' ∧ Thin ts ts' := by
  cases h with
  | keep ha h => exact ⟨_, _, rfl, ha, h⟩
  | drop hj _ =>
    rw [ht] at hj
    cases hj

theorem Thin.nil_left {zs : List Token} (h : Thin [] zs) : zs = [] := by
  cases h
  rfl

theorem Thin.filter {ts ts' : List Token} (h : Thin ts ts') :
    Thin (ts.filter (!·.isTrivia)) (ts'.filter (!·.isTrivia)) := by
  induction h with
  | nil => exact .nil
  | @keep t t' ts ts' ha _ ih =>
    cases ht : t.isTrivia with
    | true =>
      rw [List.filter_cons_of_neg (by simp [ht]), List.filter_cons_of_neg (by simp [ha.isTrivia, ht])]
      exact ih
    | false =>
      rw [List.filter_cons_of_pos (by simp [ht]), List.filter_cons_of_pos (by simp [ha.isTrivia, ht])]
      exact .keep ha ih
  | @drop t ts ts' hj _ ih =>
    rw [List.filter_cons_of_pos (by simp [Token.not_isTrivia_of_isJunk hj])]
    exact .drop hj ih

theorem Thin.startsWith {ts ts' : List Token} {w : Bytes} (h : Thin ts ts') (hw : isPlainText w = true)
    (hs : startsWith ts w = true) : startsWith ts' w = true := by
  cases ts with
  | nil => cases hs
  | cons t ts =>
    have ht : t.is w = true := hs
    obtain ⟨t', ts', rfl, ha, -⟩ := h.uncons (Token.not_isJunk_of_is ht hw)
    exact (ha.is w).trans ht

theorem Thin.unclosed {ts ts' : List Token} (h : Thin ts ts') (stack : List Bytes) :
    unclosed stack ts' = unclosed stack ts := by
  induction h generalizing stack with
  | nil => rfl
  | @keep t t' ts ts' ha _ ih =>
    rw [Source.unclosed.eq_def, Source.unclosed.eq_def stack (t :: ts)]
    simp only [ha.closer?, ha.closes, ha.is, ih]
  | drop hj _ ih =>
    rw [unclosed_plain _ _ (Token.closer?_of_isJunk hj) (closes_of_isJunk hj)]
    exact ih stack

theorem Thin.nested {ts ts' : List Token} (h : Thin ts ts') (hn : Nested ts) : Nested ts' :=
  (h.unclosed []).trans hn

/-! ## Groups -/

/-- A reader that passes what is dropped ends at the same place, whatever follows, unless an equals sign
does; the last tokens may end where all tokens do. -/
theorem through_thin {σ : Type} (step : σ → Token → Bool → Option σ)
    (halike : ∀ {s t t' equals}, Alike t t' → step s t' equals = step s t equals)
    (hjunk : ∀ {s t equals}, t.isJunk = true → step s t equals = some s)
    (hahead : ∀ {s t s'}, step s t false = some s' → step s t true = some s')
    {s : σ} {g rest g' rest' : List Token} (h : through step s (g ++ rest) = (g, rest)) (hg : Thin g g')
    (hassign : startsWith rest' "=" = false) (hlast : rest = [] → rest' = []) :
    through step s (g' ++ rest') = (g', rest') := by
  induction hg generalizing s with
  | nil =>
    rw [hlast (eq_nil_of_through h)]
    rfl
  | @keep t t' g g' ha hg ih =>
    rcases through_inv h with ⟨hstop, rfl⟩ | ⟨s', hgo, hrest⟩
    · rw [hg.nil_left]
      show through step s (t' :: rest') = ([t'], rest')
      refine through_stop ?_
      rw [halike ha, hassign]
      cases hfalse : step s t false with
      | none => rfl
      | some s' =>
        -- what goes on without an equals sign goes on with one, and this reader stops
        rw [List.nil_append] at hstop
        cases hnext : startsWith rest "=" with
        | false => rw [hnext, hfalse] at hstop; cases hstop
        | true => rw [hnext, hahead hfalse] at hstop; cases hstop
    · have hgo' : step s t' (startsWith (g' ++ rest') "=") = some s' := by
        rw [halike ha]
        cases hnext : startsWith (g ++ rest) "=" with
        | false =>
          rw [hnext] at hgo
          cases startsWith (g' ++ rest') "=" with
          | false => exact hgo
          | true => exact hahead hgo
        | true =>
          cases g with
          | nil =>
            rw [eq_nil_of_through hrest] at hnext
            cases hnext
          | cons x g =>
            obtain ⟨x', g', rfl, hx, -⟩ := hg.uncons
              (Token.not_isJunk_of_is (show x.is "=" = true from hnext) (by decide))
            rw [show startsWith (x' :: g' ++ rest') "=" = true from (hx.is _).trans hnext, ← hnext]
            exact hgo
      rw [List.cons_append, through_go hgo', ih hrest]
  | drop hj _ ih =>
    rcases through_inv h with ⟨hstop, -⟩ | ⟨s', hgo, hrest⟩
    · rw [hjunk hj] at hstop
      cases hstop
    · rw [hjunk hj] at hgo
      obtain rfl := Option.some.inj hgo
      exact ih hrest

/-- A group that is closed ends at the same place. -/
theorem splitPairFrom_thin {o c : Bytes} (ho : isPlainText o = true) (hc : isPlainText c = true)
    {d : Nat} {p q p' : List Token} (h : splitPairFrom o c d (p ++ q) = (p, q)) (hq : q ≠ [])
    (hp : Thin p p') (q' : List Token) : splitPairFrom o c d (p' ++ q') = (p', q') := by
  rw [splitPairFrom_eq] at h ⊢
  have hjunk : ∀ {d t equals}, t.isJunk = true → pairStep o c d t equals = some d := fun hj =>
    pairStep_other (Token.not_is_of_isJunk hj ho) (Token.not_is_of_isJunk hj hc)
  have hthin := through_thin (pairStep o c) (fun ha => by simp only [pairStep, ha.is]) hjunk id h hp
    (show startsWith [⟨.mark, ";", 0⟩] "=" = false from rfl) fun hnil => absurd hnil hq
  exact through_congr (fun _ _ _ _ => rfl) hthin (List.cons_ne_nil _ _) q'

theorem splitPair_thin {o c : Bytes} (ho : isPlainText o = true) (hc : isPlainText c = true)
    {ts ts' : List Token} (h : Thin ts ts') (hq : (splitPair o c ts).2 ≠ []) :
    Thin (splitPair o c ts).1 (splitPair o c ts').1 ∧ Thin (splitPair o c ts).2 (splitPair o c ts').2 := by
  have happ := splitPair_append o c ts
  have hsplit : splitPairFrom o c 0 ((splitPair o c ts).1 ++ (splitPair o c ts).2)
      = ((splitPair o c ts).1, (splitPair o c ts).2) := by
    rw [happ]
    rfl
  rw [← happ] at h
  obtain ⟨p', q', rfl, hpp, hqq⟩ := h.append_inv
  have hcut : splitPair o c (p' ++ q') = (p', q') := splitPairFrom_thin ho hc hsplit hq hpp q'
  rw [hcut]
  exact ⟨hpp, hqq⟩

theorem memberStep_junk {s : Inside} {t : Token} {equals : Bool} (hj : t.isJunk = true) :
    memberStep s t equals = some s := by
  have hopen : opens t = false := opens_of_closer? (Token.closer?_of_isJunk hj)
  rw [memberStep, if_neg (by simp [hopen]), if_neg (by simp [closes_of_isJunk hj])]
  simp [Token.not_is_of_isJunk hj (show isPlainText ";" = true by decide),
    Token.not_is_of_isJunk hj (show isPlainText "=" = true by decide),
    Token.not_is_of_isJunk hj (show isPlainText "=>" = true by decide),
    Token.not_is_of_isJunk hj (show isPlainText "operator" = true by decide)]

/-- A member ends at the same place, whatever follows it, unless a value is assigned to it there; the
last member may end with the tokens. -/
theorem memberSplitFrom_thin {d : Int} {a o : Bool} {g rest g' rest' : List Token}
    (h : memberSplitFrom d a o (g ++ rest) = (g, rest)) (hg : Thin g g')
    (hassign : startsWith rest' "=" = false) (hlast : rest = [] → rest' = []) :
    memberSplitFrom d a o (g' ++ rest') = (g', rest') := by
  rw [memberSplitFrom_eq] at h ⊢
  exact through_thin memberStep (fun ha => by simp only [memberStep, ha.is, ha.opens, ha.closes])
    memberStep_junk memberStep_ahead h hg hassign hlast

/-! ## Types -/

def beginsWord (c : UInt8) : Bool := 0x80 ≤ c || c == '@'.toUInt8 || isWordStart c.toNat

def Token.isName (t : Token) : Bool := t.isWord && t.text.head?.any beginsWord

theorem Token.not_is_of_isName {t : Token} {w : Bytes} (h : t.isName = true)
    (hw : w.head?.any beginsWord = false) : t.is w = false := by
  cases his : t.is w with
  | false => rfl
  | true =>
    simp only [Token.is, Bool.and_eq_true, beq_iff_eq] at his
    simp only [Token.isName, Bool.and_eq_true] at h
    rw [his.2, hw] at h
    cases h.2

def markTexts : List Bytes :=
  ["(", ")", "[", "]", Bytes.leftBrace, Bytes.rightBrace, "<", ">", ".", ":", ";", ",", "=", "=>", "?",
   "*", "~", "#"]

theorem isName_not_is {t : Token} {w : Bytes} (h : t.isName = true) (hw : w ∈ markTexts) :
    t.is w = false := by
  have hall : ∀ w ∈ markTexts, w.head?.any beginsWord = false := by decide
  exact Token.not_is_of_isName h (hall w hw)

theorem Token.isWord_of_isName {t : Token} (h : t.isName = true) : t.isWord = true := by
  simp only [Token.isName, Bool.and_eq_true] at h
  exact h.1

theorem splitPair_suffix (o c : Bytes) (ts : List Token) : (splitPair o c ts).2 <:+ ts :=
  ⟨_, splitPair_append o c ts⟩

theorem afterTypeName_suffix (ts : List Token) : afterTypeName ts <:+ ts := by
  fun_induction afterTypeName ts with
  | case1 => exact List.suffix_rfl
  | case2 t rest _ ih => exact (ih.trans (List.drop_suffix _ _)).trans (List.suffix_cons _ _)
  | case3 t rest _ _ ih => exact (ih.trans (List.drop_suffix _ _)).trans (List.suffix_cons _ _)
  | case4 t rest _ _ _ _ ih => exact ih.trans (splitPair_suffix _ _ _)
  | case5 => exact List.suffix_rfl

theorem afterTypeMarks_suffix (ts : List Token) : afterTypeMarks ts <:+ ts := by
  fun_induction afterTypeMarks ts with
  | case1 => exact List.suffix_rfl
  | case2 t rest _ ih => exact ih.trans (List.suffix_cons _ _)
  | case3 t rest _ _ _ ih => exact ih.trans (splitPair_suffix _ _ _)
  | case4 => exact List.suffix_rfl

/-- What a group and more leave over is left over by what follows the group. -/
theorem exists_of_splitPair {o c : Bytes} {t : Token} {a z : List Token} {f : List Token → List Token}
    (hf : ∀ ts, f ts <:+ ts) (h : f (splitPair o c (t :: a ++ z)).2 = z) :
    ∃ p q, t :: a = p ++ q ∧ p ≠ [] ∧ q.length < (t :: a).length ∧
      splitPair o c (p ++ (q ++ z)) = (p, q ++ z) ∧ f (q ++ z) = z := by
  obtain ⟨q, hq⟩ := hf (splitPair o c (t :: a ++ z)).2
  rw [h] at hq
  have happ := splitPair_append o c (t :: a ++ z)
  rw [← hq, ← List.append_assoc] at happ
  have hcut := List.append_cancel_right happ
  have hne := splitPair_fst_ne_nil o c t (a ++ z)
  refine ⟨(splitPair o c (t :: a ++ z)).1, q, hcut.symm, hne, ?_, ?_, ?_⟩
  · have hpos := List.length_pos_iff.2 hne
    rw [← hcut, List.length_append, List.cons_append]
    omega
  · rw [← List.append_assoc, hcut]
    exact Prod.ext rfl hq.symm
  · rwa [hq]

/-- What a group and more leave over comes behind the same group of alike tokens, whatever is left over. -/
theorem exists_of_splitPair_thin {o c : Bytes} (ho : isPlainText o = true) (hc : isPlainText c = true)
    {t : Token} {a a' z : List Token} {f : List Token → List Token} (hf : ∀ ts, f ts <:+ ts)
    (hopen : t.is o = true) (hz : z ≠ []) (h : f (splitPair o c (t :: a ++ z)).2 = z)
    (ha : Thin (t :: a) a') :
    ∃ p q t' p' q', a = p ++ q ∧ a' = t' :: (p' ++ q') ∧ Alike t t' ∧ Thin p p' ∧ Thin q q' ∧
      q.length < (t :: a).length ∧ splitPair o c (t :: p ++ (q ++ z)) = (t :: p, q ++ z) ∧ f (q ++ z) = z ∧
      ∀ z', splitPair o c (t' :: (p' ++ (q' ++ z'))) = (t' :: p', q' ++ z') := by
  obtain ⟨p, q, hpq, hp, hlen, hsplit, hq⟩ := exists_of_splitPair hf h
  rw [hpq] at ha
  obtain ⟨p', q', rfl, hpp, hqq⟩ := ha.append_inv
  have hcut : ∀ z', splitPair o c (p' ++ (q' ++ z')) = (p', q' ++ z') := fun z' =>
    splitPairFrom_thin ho hc hsplit (by simp [hz]) hpp (q' ++ z')
  obtain ⟨x, p, rfl⟩ := List.exists_cons_of_ne_nil hp
  obtain ⟨rfl, rfl⟩ := List.cons.inj hpq
  obtain ⟨t', p', rfl, ht, hpp⟩ := hpp.uncons (Token.not_isJunk_of_is hopen ho)
  exact ⟨p, q, t', p', q', rfl, rfl, ht, hpp, hqq, hlen, hsplit, hq, hcut⟩

theorem append_ne_self {t : Token} {a z : List Token} : t :: a ++ z ≠ z := fun h => by
  have := congrArg List.length h
  simp only [List.length_append, List.length_cons] at this
  omega

theorem ne_of_suffix {t : Token} {z s : List Token} (h : s <:+ z) : s ≠ t :: z := fun hs => by
  have := h.length_le
  rw [hs, List.length_cons] at this
  omega

/-- The dotted, qualified and generic parts of a type name are the same in front of any token that
continues none. -/
theorem afterTypeName_thin {a a' z z' : List Token} (h : afterTypeName (a ++ z) = z) (hz : z ≠ [])
    (ha : Thin a a') (hz' : ∀ x, z'.head? = some x → x.is "." = false ∧ x.is ":" = false ∧ x.is "<" = false) :
    afterTypeName (a' ++ z') = z' := by
  induction hn : a.length using Nat.strongRecOn generalizing a a' with
  | _ n ih =>
    subst hn
    cases a with
    | nil =>
      rw [ha.nil_left, List.nil_append]
      cases z' with
      | nil => rw [afterTypeName]
      | cons x z' =>
        obtain ⟨h₁, h₂, h₃⟩ := hz' x rfl
        rw [afterTypeName, if_neg (by simp [h₁]), if_neg (by simp [h₂]), if_neg (by simp [h₃])]
    | cons t a =>
      rw [List.cons_append, afterTypeName] at h
      split at h
      · rename_i hdot
        simp only [Bool.and_eq_true] at hdot
        obtain ⟨t', a₁', rfl, ht, ha₁⟩ := ha.uncons (Token.not_isJunk_of_is hdot.1 (by decide))
        cases a with
        | nil =>
          obtain ⟨x, z, rfl⟩ := List.exists_cons_of_ne_nil hz
          exact absurd h (ne_of_suffix (afterTypeName_suffix _))
        | cons w a =>
          have hw : w.isWord = true := hdot.2
          obtain ⟨w', a₂', rfl, hww, ha₂⟩ := ha₁.uncons (Token.not_isJunk_of_isWord hw)
          rw [List.cons_append, afterTypeName, if_pos]
          · exact ih a.length (by simp only [List.length_cons]; omega) h ha₂ rfl
          · rw [ht.is, hdot.1]
            exact hww.isWord.trans hw
      · rename_i hdot
        split at h
        · rename_i hcolon
          simp only [Bool.and_eq_true] at hcolon
          obtain ⟨t', a₁', rfl, ht, ha₁⟩ := ha.uncons (Token.not_isJunk_of_is hcolon.1.1 (by decide))
          rcases a with _ | ⟨c, _ | ⟨w, a⟩⟩
          · obtain ⟨x, z, rfl⟩ := List.exists_cons_of_ne_nil hz
            refine absurd h (ne_of_suffix (((afterTypeName_suffix _).trans ?_)))
            exact List.drop_suffix 1 z
          · obtain ⟨x, z, rfl⟩ := List.exists_cons_of_ne_nil hz
            exact absurd h (ne_of_suffix (afterTypeName_suffix _))
          · have hc : c.is ":" = true := hcolon.1.2
            have hw : w.isWord = true := hcolon.2
            obtain ⟨c', a₂', rfl, hcc, ha₂⟩ := ha₁.uncons (Token.not_isJunk_of_is hc (by decide))
            obtain ⟨w', a₃', rfl, hww, ha₃⟩ := ha₂.uncons (Token.not_isJunk_of_isWord hw)
            rw [List.cons_append, afterTypeName, if_neg, if_pos]
            · exact ih a.length (by simp only [List.length_cons]; omega) h ha₃ rfl
            · rw [ht.is, hcolon.1.1, Bool.true_and, Bool.and_eq_true]
              exact ⟨(hcc.is _).trans hc, hww.isWord.trans hw⟩
            · rw [ht.is, Token.not_is hcolon.1.1 (by decide)]
              simp
        · rename_i hcolon
          split at h
          · rename_i hless
            obtain ⟨p, q, t', p', q', -, rfl, ht, -, hqq, hlen, -, hq, hcut⟩ :=
              exists_of_splitPair_thin (by decide) (by decide) afterTypeName_suffix hless hz h ha
            rw [List.cons_append, List.append_assoc, afterTypeName, if_neg, if_neg, if_pos]
            · rw [hcut]
              exact ih q.length hlen hq hqq rfl
            · rw [ht.is, hless]
            · simp [ht.is, Token.not_is hless (show ("<" : Bytes) ≠ ":" by decide)]
            · simp [ht.is, Token.not_is hless (show ("<" : Bytes) ≠ "." by decide)]
          · exact absurd h append_ne_self

/-- The marks at the end of a type are the same in front of any word. -/
theorem afterTypeMarks_thin {a a' z z' : List Token} {x : Token} (h : afterTypeMarks (a ++ z) = z)
    (hz : z ≠ []) (ha : Thin a a') (hx : x.isName = true) :
    afterTypeMarks (a' ++ x :: z') = x :: z' := by
  induction hn : a.length using Nat.strongRecOn generalizing a a' with
  | _ n ih =>
    subst hn
    cases a with
    | nil =>
      rw [ha.nil_left, List.nil_append, afterTypeMarks,
        if_neg (by simp [isName_not_is hx (w := "?") (by simp [markTexts]),
          isName_not_is hx (w := "*") (by simp [markTexts])]),
        if_neg (by simp [isName_not_is hx (w := "[") (by simp [markTexts])])]
    | cons t a =>
      rw [List.cons_append, afterTypeMarks] at h
      split at h
      · rename_i hmark
        have hjunk : t.isJunk = false := by
          rcases (Bool.or_eq_true _ _).mp hmark with hm | hm
          · exact Token.not_isJunk_of_is hm (by decide)
          · exact Token.not_isJunk_of_is hm (by decide)
        obtain ⟨t', a₁', rfl, ht, ha₁⟩ := ha.uncons hjunk
        rw [List.cons_append, afterTypeMarks, if_pos (by rw [ht.is, ht.is, hmark])]
        exact ih a.length (by simp only [List.length_cons]; omega) h ha₁ rfl
      · rename_i hmark
        split at h
        · rename_i harray
          simp only [Bool.and_eq_true] at harray
          obtain ⟨p, q, t', p', q', rfl, rfl, ht, hpp, hqq, hlen, hsplit, hq, hcut⟩ :=
            exists_of_splitPair_thin (by decide) (by decide) afterTypeMarks_suffix harray.1 hz h ha
          have hinner : p ≠ [] := by
            rintro rfl
            rw [splitPair, splitPairFrom_eq, List.cons_append, through_go (pairStep_open harray.1)] at hsplit
            have hnil := eq_nil_of_through (Prod.ext (List.cons.inj (Prod.mk.inj hsplit).1).2 rfl)
            simp [hz] at hnil
          obtain ⟨w, p, rfl⟩ := List.exists_cons_of_ne_nil hinner
          have hw : w.is "]" = true ∨ w.is "," = true := (Bool.or_eq_true _ _).mp harray.2
          obtain ⟨w', p', rfl, hww, -⟩ := hpp.uncons (by
            rcases hw with hw | hw
            · exact Token.not_isJunk_of_is hw (by decide)
            · exact Token.not_isJunk_of_is hw (by decide))
          rw [List.cons_append, List.append_assoc, afterTypeMarks, if_neg, if_pos]
          · rw [hcut]
            exact ih q.length hlen hq hqq rfl
          · rw [ht.is, harray.1, Bool.true_and, Bool.or_eq_true]
            exact hw.imp (fun h => (hww.is _).trans h) fun h => (hww.is _).trans h
          · simp [ht.is, Token.not_is harray.1 (show ("[" : Bytes) ≠ "?" by decide),
              Token.not_is harray.1 (show ("[" : Bytes) ≠ "*" by decide)]
        · exact absurd h append_ne_self

theorem is_mark_of_afterTypeMarks {m : Token} {b z : List Token} (h : afterTypeMarks (m :: (b ++ z)) = z) :
    m.is "?" = true ∨ m.is "*" = true ∨ m.is "[" = true := by
  rw [afterTypeMarks] at h
  split at h
  · rename_i hmark
    exact ((Bool.or_eq_true _ _).mp hmark).imp id Or.inl
  · split at h
    · rename_i harray
      simp only [Bool.and_eq_true] at harray
      exact Or.inr (Or.inr harray.1)
    · exact absurd h append_ne_self

/-- Neither a mark at the end of a type nor the word behind the type continues the type's name. -/
theorem marks_continue_no_name {b b' z z' : List Token} {x : Token} (h : afterTypeMarks (b ++ z) = z)
    (hb : Thin b b') (hx : x.isName = true) {y : Token} (hy : (b' ++ x :: z').head? = some y) :
    y.is "." = false ∧ y.is ":" = false ∧ y.is "<" = false := by
  cases b with
  | nil =>
    rw [hb.nil_left] at hy
    cases hy
    exact ⟨isName_not_is hx (by simp [markTexts]), isName_not_is hx (by simp [markTexts]),
      isName_not_is hx (by simp [markTexts])⟩
  | cons m b =>
    have hm := is_mark_of_afterTypeMarks h
    have hjunk : m.isJunk = false := by
      rcases hm with hm | hm | hm <;> exact Token.not_isJunk_of_is hm (by decide)
    obtain ⟨m', b', rfl, hmm, -⟩ := hb.uncons hjunk
    cases hy
    rw [hmm.is, hmm.is, hmm.is]
    rcases hm with hm | hm | hm <;>
      exact ⟨Token.not_is hm (by decide), Token.not_is hm (by decide), Token.not_is hm (by decide)⟩

theorem afterType?_thin {a a' z' rest : List Token} {word x : Token}
    (h : afterType? (a ++ word :: rest) = some (word :: rest)) (ha : Thin a a') (hx : x.isName = true) :
    afterType? (a' ++ x :: z') = some (x :: z') := by
  cases a with
  | nil =>
    exfalso
    rw [List.nil_append, afterType?] at h
    split at h
    · have hlt := length_splitPair_lt "(" ")" word rest
      have hle := (afterTypeMarks_suffix (splitPair "(" ")" (word :: rest)).2).length_le
      rw [Option.some.inj h, List.length_cons] at hle
      omega
    · split at h
      · have hle := ((afterTypeMarks_suffix _).trans (afterTypeName_suffix rest)).length_le
        rw [Option.some.inj h, List.length_cons] at hle
        omega
      · cases h
  | cons t a =>
    rw [List.cons_append, afterType?] at h
    split at h
    · rename_i hopen
      obtain ⟨p, q, t', p', q', -, rfl, ht, -, hqq, -, -, hq, hcut⟩ := exists_of_splitPair_thin (by decide)
        (by decide) afterTypeMarks_suffix hopen (List.cons_ne_nil _ _) (Option.some.inj h) ha
      rw [List.cons_append, List.append_assoc, afterType?, if_pos (by rw [ht.is, hopen]), hcut]
      exact congrArg some (afterTypeMarks_thin hq (by simp) hqq hx)
    · rename_i hopen
      split at h
      · rename_i hword
        obtain ⟨t', a', rfl, ht, ha₁⟩ := ha.uncons (Token.not_isJunk_of_isWord hword)
        have hmarks := Option.some.inj h
        -- the type is its name and the marks after it
        obtain ⟨b, hb⟩ := afterTypeMarks_suffix (afterTypeName (a ++ word :: rest))
        rw [hmarks] at hb
        obtain ⟨n, hn⟩ := afterTypeName_suffix (a ++ word :: rest)
        rw [← hb, ← List.append_assoc] at hn
        obtain rfl := List.append_cancel_right hn
        obtain ⟨n', b', rfl, hnn, hbb⟩ := ha₁.append_inv
        rw [← hb] at hmarks
        rw [List.append_assoc] at hb
        rw [List.cons_append, afterType?, if_neg (by rw [ht.is]; exact hopen),
          if_pos (by rw [ht.isWord, hword]), List.append_assoc,
          afterTypeName_thin hb.symm (by simp) hnn fun y => marks_continue_no_name hmarks hbb hx,
          afterTypeMarks_thin hmarks (by simp) hbb hx]
      · cases h

theorem dottedName_of_startsWith {name w : Bytes} {ts : List Token} (h : startsWith ts w = true)
    (hw : w ≠ ".") : dottedName name ts = (name, ts) := by
  rcases ts with _ | ⟨dot, _ | ⟨x, ts⟩⟩
  · rfl
  · rfl
  · rw [dottedName, if_neg (by simp [Token.not_is (show dot.is w = true from h) hw])]

theorem dottedName_nil (name : Bytes) : dottedName name [] = (name, []) := rfl

theorem dottedName_one (name : Bytes) (t : Token) : dottedName name [t] = (name, [t]) := rfl

/-- A dotted name is the same in front of an opening bracket. -/
theorem dottedName_thin {name : Bytes} {ts ts' : List Token} (h : Thin ts ts')
    (hend : startsWith (dottedName name ts).2 "<" = true ∨ startsWith (dottedName name ts).2 "(" = true) :
    (dottedName name ts').1 = (dottedName name ts).1 ∧
      Thin (dottedName name ts).2 (dottedName name ts').2 := by
  have hstop : ∀ {name : Bytes} {ts ts' : List Token}, Thin ts ts' →
      startsWith ts "<" = true ∨ startsWith ts "(" = true → dottedName name ts' = (name, ts') := by
    rintro name ts ts' h (hend | hend)
    · exact dottedName_of_startsWith (h.startsWith (by decide) hend) (by decide)
    · exact dottedName_of_startsWith (h.startsWith (by decide) hend) (by decide)
  induction hlen : ts.length using Nat.strongRecOn generalizing name ts ts' with
  | _ len ih =>
  rcases ts with _ | ⟨dot, _ | ⟨word, ts⟩⟩
  · rw [dottedName_nil] at hend ⊢
    rw [hstop h hend]
    exact ⟨rfl, h⟩
  · rw [dottedName_one] at hend ⊢
    rw [hstop h hend]
    exact ⟨rfl, h⟩
  · by_cases hdot : (dot.is "." && word.isWord) = true
    · rw [dottedName, if_pos hdot] at hend ⊢
      simp only [Bool.and_eq_true] at hdot
      obtain ⟨dot', ts₁', rfl, hd, h₁⟩ := h.uncons (Token.not_isJunk_of_is hdot.1 (by decide))
      obtain ⟨word', ts₂', rfl, hw, h₂⟩ := h₁.uncons (Token.not_isJunk_of_isWord hdot.2)
      rw [dottedName, if_pos (by rw [hd.is, hw.isWord, hdot.1, hdot.2]; rfl), hw.text hdot.2]
      exact ih ts.length (by simp only [List.length_cons] at hlen; omega) h₂ hend rfl
    · rw [dottedName, if_neg hdot] at hend ⊢
      rw [hstop h hend]
      exact ⟨rfl, h⟩

/-! ## Attributes and modifiers -/

/-- The attributes are the same in front of a token that is no mark of a blank. -/
theorem attributesSplit_thin {ts ts' rest : List Token} {t : Token} (h : Thin ts ts')
    (hend : (attributesSplit ts).2 = t :: rest) (ht : t.isJunk = false) :
    Thin (attributesSplit ts).2 (attributesSplit ts').2 := by
  fun_induction attributesSplit ts generalizing ts' with
  | case1 => cases hend
  | case2 x ts hopen hlt pair more =>
    rename_i ih
    change (attributesSplit pair.2).2 = t :: rest at hend
    have hq : pair.2 ≠ [] := by
      intro hnil
      rw [hnil, attributesSplit] at hend
      cases hend
    obtain ⟨-, hthin⟩ := splitPair_thin (by decide) (by decide) h hq
    obtain ⟨x', ts', rfl, hx, -⟩ := h.uncons (Token.not_isJunk_of_is hopen (by decide))
    rw [attributesSplit, if_pos (by rw [hx.is, hopen])]
    exact ih hthin hend
  | case3 x ts hopen =>
    obtain ⟨rfl, rfl⟩ := List.cons.inj hend
    obtain ⟨x', ts', rfl, hx, hts⟩ := h.uncons ht
    rw [attributesSplit, if_neg (by rw [hx.is]; exact hopen)]
    exact .keep hx hts

/-- The modifiers are the same in front of a token that is no mark of a blank. -/
theorem dropWhile_isModifier_thin {ts ts' rest : List Token} {t : Token} (h : Thin ts ts')
    (hend : ts.dropWhile isModifier = t :: rest) (ht : t.isJunk = false) :
    Thin (ts.dropWhile isModifier) (ts'.dropWhile isModifier) := by
  induction ts generalizing ts' with
  | nil => cases hend
  | cons x ts ih =>
    cases hx : isModifier x with
    | true =>
      have hword : x.isWord = true := by
        unfold isModifier isWordOf at hx
        rw [Bool.and_eq_true] at hx
        exact hx.1
      obtain ⟨x', ts', rfl, ha, hts⟩ := h.uncons (Token.not_isJunk_of_isWord hword)
      rw [List.dropWhile_cons_of_pos hx] at hend ⊢
      rw [List.dropWhile_cons_of_pos (by rw [isModifier, ha.isWordOf]; exact hx)]
      exact ih hts hend
    | false =>
      rw [List.dropWhile_cons_of_neg (by simp [hx])] at hend ⊢
      obtain ⟨rfl, rfl⟩ := List.cons.inj hend
      obtain ⟨x', ts', rfl, ha, hts⟩ := h.uncons ht
      rw [List.dropWhile_cons_of_neg (by rw [isModifier, ha.isWordOf]; simpa [isModifier] using hx)]
      exact .keep ha hts

end Flowsmith.Source
