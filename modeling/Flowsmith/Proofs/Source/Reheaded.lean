import Flowsmith.Proofs.Source.Abutting
import Flowsmith.Proofs.Source.Moved
import Flowsmith.Proofs.Source.RoundTrip
import Flowsmith.Text.Match

/-!
# A class with other modifiers

When the modifiers of the class that a source is read for are replaced, the class is found again behind
the new ones, and nothing else about it changes.

* `finds_of_outlineFrom` : the walk over the tokens comes to the class again;
* `fronts_of_solid` : the tokens in front of the class;
* `exists_classPlace` : where the class stands;
* `ClassPlace.rehead` : the class behind other modifiers.
-/

namespace Flowsmith.Source

open Bytes (isLetterByte)

/-! ## The walk to the class -/

/-- A function that cuts alike up to the offset `n`. -/
def CutsAlike (n : Nat) (cut cut' : Nat → Nat → Bytes) : Prop := ∀ a b, b ≤ n → cut' a b = cut a b

theorem CutsAlike.raw {cut cut' : Nat → Nat → Bytes} {n : Nat} (hcut : CutsAlike n cut cut')
    {ts : List Token} (h : ∀ t ∈ ts, t.stop ≤ n) : raw cut' ts = raw cut ts := by
  unfold Source.raw
  split
  · rename_i a b ha hb
    exact hcut a.start b.stop (h b (List.mem_of_getLast? hb))
  · rfl

/-- A token that ends the text of a directive or of a namespace. -/
theorem not_isModifier_of_stop {t : Token} (h : (t.is Bytes.leftBrace || t.is ";") = true) :
    isModifier t = false := by
  have htext : t.text = Bytes.leftBrace ∨ t.text = ";" := by
    simp only [Token.is, Bool.or_eq_true, Bool.and_eq_true, beq_iff_eq] at h
    exact h.imp And.right And.right
  rw [isModifier, isWordOf, Bool.and_eq_false_iff]
  right
  rcases htext with htext | htext <;> rw [htext] <;> decide

theorem exists_of_drop_takeWhile {p : Token → Bool} {l : List Token}
    (h : l.drop ((l.takeWhile p).length + 1) ≠ []) :
    ∃ t, p t = false ∧ l.take ((l.takeWhile p).length + 1) = l.takeWhile p ++ [t] := by
  have happ := List.takeWhile_append_dropWhile (p := p) (l := l)
  cases hdrop : l.dropWhile p with
  | nil =>
    rw [hdrop, List.append_nil] at happ
    rw [happ, List.drop_eq_nil_of_le (Nat.le_succ _)] at h
    exact absurd rfl h
  | cons t rest =>
    have hhead := List.head?_dropWhile_not p l
    have htake := (take_concat (l.takeWhile p) t rest).1
    rw [hdrop] at hhead happ
    rw [happ] at htake
    exact ⟨t, by simpa using hhead, htake⟩

/-- Tokens that end with one that is no modifier do not reach into the modifiers after others. -/
theorem exists_of_append_eq {us ts H fs : List Token} {t : Token} (ht : isModifier t = false)
    (hH : ∀ x ∈ H, isModifier x = true) (h : us ++ t :: fs = ts ++ H) :
    ∃ ts', ts = us ++ t :: ts' ∧ fs = ts' ++ H := by
  rcases List.append_eq_append_iff.1 h with ⟨a, rfl, hrest⟩ | ⟨a, rfl, rfl⟩
  · cases a with
    | nil =>
      obtain rfl : H = t :: fs := hrest.symm
      rw [hH t List.mem_cons_self] at ht
      cases ht
    | cons x a =>
      obtain ⟨rfl, rfl⟩ := List.cons.inj hrest
      exact ⟨a, rfl, rfl⟩
  · rw [hH t (by simp)] at ht
    cases ht

/-- A step over a group of tokens that ends with `stop`. -/
theorem outlineFrom_using_group (cut : Nat → Nat → Bytes) (trivia before : List Token) (found : Outline)
    {t stop : Token} {us ys : List Token} (ht : t.is "using" = true)
    (hhead : (us ++ [stop]).head?.any (·.isWord) = true) (hus : ∀ x ∈ us, x.is ";" = false)
    (hstop : stop.is ";" = true) :
    outlineFrom cut trivia found before (t :: (us ++ stop :: ys))
      = outlineFrom cut trivia { found with usings := found.usings ++ [flat cut us] }
          ((us ++ [stop]).reverse ++ t :: before) ys := by
  have htarget : (us ++ stop :: ys).takeWhile (fun x => !x.is ";") = us :=
    (takeWhile_append_cons ys (fun x hx => by rw [hus x hx]; rfl) (by rw [hstop]; rfl)).1
  have hword : (us ++ stop :: ys).head?.any (·.isWord) = true := by
    cases us <;> exact hhead
  obtain ⟨htake, hdrop⟩ := take_concat us stop ys
  rw [outlineFrom, if_pos (by rw [ht, hword]; rfl)]
  simp only [htarget, htake, hdrop]

theorem outlineFrom_space_group (cut : Nat → Nat → Bytes) (trivia before : List Token) (found : Outline)
    {t stop : Token} {us ys : List Token} (ht : t.is "namespace" = true) (hspace : found.space = [])
    (hus : ∀ x ∈ us, (x.is Bytes.leftBrace || x.is ";") = false)
    (hstop : (stop.is Bytes.leftBrace || stop.is ";") = true) :
    outlineFrom cut trivia found before (t :: (us ++ stop :: ys))
      = outlineFrom cut trivia { found with space := flat cut us }
          ((us ++ [stop]).reverse ++ t :: before) ys := by
  have htarget : (us ++ stop :: ys).takeWhile (fun x => !(x.is Bytes.leftBrace || x.is ";")) = us :=
    (takeWhile_append_cons ys (fun x hx => by rw [hus x hx]; rfl) (by rw [hstop]; rfl)).1
  have husing : t.is "using" = false := by
    simp only [Token.is, Bool.and_eq_true, beq_iff_eq] at ht
    exact not_is_of_text_ne (by rw [ht.2]; decide)
  obtain ⟨htake, hdrop⟩ := take_concat us stop ys
  rw [outlineFrom, if_neg (by simp [husing]), if_pos (by rw [ht, hspace]; rfl)]
  simp only [htarget, htake, hdrop]

theorem any_isWord_append {ts H : List Token} {keyword : Token} (after : List Token)
    (hH : ∀ t ∈ H, isModifier t = true) (hkey : keyword.isWord = true) :
    (ts ++ (H ++ keyword :: after)).head?.any (·.isWord) = (ts.head?.map (·.isWord)).getD true := by
  cases ts with
  | cons t ts => rfl
  | nil =>
    cases H with
    | nil => exact hkey
    | cons t H =>
      have hmod := hH t List.mem_cons_self
      rw [isModifier, isWordOf, Bool.and_eq_true] at hmod
      exact hmod.1

/-- The walk over the tokens `ts` comes to `H` with `before` behind it, whatever modifiers `H` are and
whatever class stands after them. -/
def Comes (cut : Nat → Nat → Bytes) (trivia : List Token) (found : Outline) (before ts : List Token) :
    Prop :=
  ∀ (H : List Token) (keyword : Token) (after : List Token) (c : Class),
    (∀ t ∈ H, isModifier t = true) → keyword.is "class" = true → keyword.isWord = true →
    beginsClass (H.reverse ++ (ts.reverse ++ before)) after = true →
    classOf cut trivia (H.reverse ++ (ts.reverse ++ before)) keyword after = .ok c →
    ∃ o, outlineFrom cut trivia found before (ts ++ (H ++ keyword :: after)) = .ok o ∧ o.class? = some c

theorem comes_nil (cut : Nat → Nat → Bytes) (trivia : List Token) (found : Outline)
    (before : List Token) : Comes cut trivia found before [] := by
  intro H keyword after c hH hkey _ hbegins hclass
  have hword : ∀ t ∈ H, t.text ∈ modifierWords := fun t ht => by
    have hmod := hH t ht
    rw [isModifier, isWordOf, Bool.and_eq_true, List.contains_iff_mem] at hmod
    exact hmod.2
  have htext : keyword.text = "class" := by
    simp only [Token.is, Bool.and_eq_true, beq_iff_eq] at hkey
    exact hkey.2
  rw [List.reverse_nil, List.nil_append] at hbegins hclass
  refine ⟨{ found with class? := some c }, ?_, rfl⟩
  rw [List.nil_append, outlineFrom_pass cut trivia found before hword, outlineFrom,
    not_is_of_text_ne (w := "using") (by rw [htext]; decide),
    not_is_of_text_ne (w := "namespace") (by rw [htext]; decide), hkey, hbegins, hclass]
  rfl

/-- The walk over `ts` ends at a class. In other texts with the same first `n` bytes it comes there behind
any part of the tokens in front of the class that lies within these bytes and leaves modifiers alone. -/
def Finds (cut : Nat → Nat → Bytes) (trivia : List Token) (n : Nat) (found : Outline)
    (before ts : List Token) (c : Class) : Prop :=
  ∃ front keyword after, ts = front ++ keyword :: after ∧ keyword.is "class" = true ∧
    beginsClass (front.reverse ++ before) after = true ∧
    classOf cut trivia (front.reverse ++ before) keyword after = .ok c ∧
    ∀ P H : List Token, front = P ++ H → (∀ t ∈ H, isModifier t = true) → (∀ t ∈ P, t.stop ≤ n) →
      ∀ cut' trivia', CutsAlike n cut cut' → Comes cut' trivia' found before P

/-- A step of the walk over the tokens `us`. -/
theorem Finds.step {cut : Nat → Nat → Bytes} {trivia before us ts : List Token} {n : Nat}
    {found found' : Outline} {c : Class} (h : Finds cut trivia n found' (us.reverse ++ before) ts c)
    (hclass : ∀ t ∈ ts, t.is "class" = true → t.isWord = true)
    (hus : ∀ P H fs : List Token, us ++ fs = P ++ H → (∀ t ∈ H, isModifier t = true) →
      P = [] ∨ ∃ P', P = us ++ P' ∧ fs = P' ++ H)
    (hstep : (∀ t ∈ us, t.stop ≤ n) → ∀ cut' trivia' (ys : List Token), CutsAlike n cut cut' →
      ys.head?.any (·.isWord) = ts.head?.any (·.isWord) →
        outlineFrom cut' trivia' found before (us ++ ys)
          = outlineFrom cut' trivia' found' (us.reverse ++ before) ys) :
    Finds cut trivia n found before (us ++ ts) c := by
  obtain ⟨front, keyword, after, rfl, hkey, hbegins, hread, hmore⟩ := h
  have hreverse : (us ++ front).reverse ++ before = front.reverse ++ (us.reverse ++ before) := by
    rw [List.reverse_append, List.append_assoc]
  have hword := hclass keyword (by simp) hkey
  refine ⟨us ++ front, keyword, after, (List.append_assoc _ _ _).symm, hkey, by rwa [hreverse],
    by rwa [hreverse], fun P H heq hH hP cut' trivia' hcut => ?_⟩
  rcases hus P H front heq hH with rfl | ⟨P', rfl, rfl⟩
  · exact comes_nil _ _ _ _
  intro H' keyword' after' c' hH' hkey' hword' hbegins' hread'
  rw [List.reverse_append, List.append_assoc] at hbegins' hread'
  obtain ⟨o, ho, hc⟩ := hmore P' H rfl hH (fun t ht => hP t (List.mem_append_right _ ht)) cut' trivia'
    hcut H' keyword' after' c' hH' hkey' hword' hbegins' hread'
  refine ⟨o, ?_, hc⟩
  rw [List.append_assoc, hstep (fun t ht => hP t (List.mem_append_left _ ht)) cut' trivia' _ hcut]
  · exact ho
  · rw [any_isWord_append after' hH' hword', List.append_assoc, any_isWord_append after hH hword]

theorem Finds.ne_nil {cut : Nat → Nat → Bytes} {trivia before ts : List Token} {n : Nat}
    {found : Outline} {c : Class} (h : Finds cut trivia n found before ts c) : ts ≠ [] := by
  obtain ⟨front, keyword, after, rfl, -⟩ := h
  simp

theorem group_reverse (t stop : Token) (us before : List Token) :
    (us ++ [stop]).reverse ++ t :: before = ((t :: us) ++ [stop]).reverse ++ before := by simp

theorem group_append (t stop : Token) (us ys : List Token) :
    ((t :: us) ++ [stop]) ++ ys = t :: (us ++ stop :: ys) := by simp

theorem group_eq (t : Token) {stop : Token} {us rest : List Token} {k : Nat}
    (h : rest.take k = us ++ [stop]) : t :: rest = ((t :: us) ++ [stop]) ++ rest.drop k := by
  conv => lhs; rw [← List.take_append_drop k rest, h]
  simp

theorem group_of_append {us : List Token} {stop : Token} (hstop : isModifier stop = false)
    (P H fs : List Token) (h : (us ++ [stop]) ++ fs = P ++ H) (hH : ∀ t ∈ H, isModifier t = true) :
    P = [] ∨ ∃ P', P = (us ++ [stop]) ++ P' ∧ fs = P' ++ H := by
  rw [← List.append_cons] at h
  obtain ⟨P', hP, hfs⟩ := exists_of_append_eq hstop hH h
  exact Or.inr ⟨P', by rw [hP, List.append_cons], hfs⟩

/-- **The walk to the class** comes to it in the same way when other modifiers stand in front of it and
the text before them is the same. -/
theorem finds_of_outlineFrom {cut : Nat → Nat → Bytes} (n : Nat) {trivia before ts : List Token}
    {found o : Outline} {c : Class} (h : outlineFrom cut trivia found before ts = .ok o)
    (hnone : found.class? = none) (hc : o.class? = some c)
    (hclass : ∀ t ∈ ts, t.is "class" = true → t.isWord = true) :
    Finds cut trivia n found before ts c := by
  fun_induction outlineFrom cut trivia found before ts with
  | case1 found before =>
    cases h
    rw [hnone] at hc
    cases hc
  | case2 found before t rest husing target ih =>
    have hsub : ∀ x ∈ rest.drop (target.length + 1), x.is "class" = true → x.isWord = true := fun x hx =>
      hclass x (List.mem_cons_of_mem _ (List.mem_of_mem_drop hx))
    have hrec := ih h hnone hsub
    obtain ⟨stop, hstop, htake⟩ := exists_of_drop_takeWhile hrec.ne_nil
    rw [Bool.not_eq_false'] at hstop
    rw [Bool.and_eq_true] at husing
    rw [htake, group_reverse] at hrec
    rw [group_eq t htake]
    refine hrec.step hsub (group_of_append (not_isModifier_of_stop (by rw [hstop, Bool.or_true]))) ?_
    intro hn cut' trivia' ys hcut _
    have hflat : flat cut' target = flat cut target :=
      congrArg Bytes.collapse (hcut.raw fun x hx =>
        hn x (List.mem_append_left _ (List.mem_cons_of_mem t hx)))
    have hword : (target ++ [stop]).head?.any (·.isWord) = true := by
      rw [← htake, List.head?_take, if_neg (Nat.succ_ne_zero _)]
      exact husing.2
    rw [group_append, outlineFrom_using_group cut' trivia' before found husing.1 hword
      (fun x hx => by simpa using List.mem_takeWhile_imp hx) hstop, hflat, ← group_reverse]
  | case3 found before t rest husing hspace name ih =>
    have hsub : ∀ x ∈ rest.drop (name.length + 1), x.is "class" = true → x.isWord = true := fun x hx =>
      hclass x (List.mem_cons_of_mem _ (List.mem_of_mem_drop hx))
    have hrec := ih h hnone hsub
    obtain ⟨stop, hstop, htake⟩ := exists_of_drop_takeWhile hrec.ne_nil
    rw [Bool.not_eq_false'] at hstop
    rw [Bool.and_eq_true, List.isEmpty_iff] at hspace
    rw [htake, group_reverse] at hrec
    rw [group_eq t htake]
    refine hrec.step hsub (group_of_append (not_isModifier_of_stop hstop)) ?_
    intro hn cut' trivia' ys hcut _
    have hflat : flat cut' name = flat cut name :=
      congrArg Bytes.collapse (hcut.raw fun x hx =>
        hn x (List.mem_append_left _ (List.mem_cons_of_mem t hx)))
    rw [group_append, outlineFrom_space_group cut' trivia' before found hspace.1 hspace.2
      (fun x hx => by simpa using List.mem_takeWhile_imp hx) hstop, hflat, ← group_reverse]
  | case4 found before t rest husing hspace hbegins =>
    obtain ⟨c', hread, rfl⟩ := map_eq_ok h
    cases hc
    rw [Bool.and_eq_true] at hbegins
    refine ⟨[], t, rest, rfl, hbegins.1, hbegins.2, hread, fun P H heq _ _ _ _ _ => ?_⟩
    rw [(List.append_eq_nil_iff.1 heq.symm).1]
    exact comes_nil _ _ _ _
  | case5 found before t rest husing hspace hbegins ih =>
    have hrec : Finds cut trivia n found ([t].reverse ++ before) rest c :=
      ih h hnone fun x hx => hclass x (List.mem_cons_of_mem _ hx)
    refine hrec.step (fun x hx => hclass x (List.mem_cons_of_mem _ hx)) ?_ ?_
    · intro P H fs heq _
      cases P with
      | nil => exact Or.inl rfl
      | cons x P =>
        obtain ⟨rfl, rfl⟩ := List.cons.inj heq
        exact Or.inr ⟨P, rfl, rfl⟩
    · intro _ cut' trivia' ys _ hys
      have hsame : beginsClass before ys = beginsClass before rest := by
        unfold beginsClass
        rw [hys]
      rw [List.singleton_append, outlineFrom, hys, if_neg husing, if_neg hspace, hsame, if_neg hbegins]
      rfl

/-! ## The tokens of a source with other modifiers -/

theorem exists_lexeme_of_mem {s : Bytes} {pos : Nat} {fresh : Bool} {t : Token}
    (h : t ∈ tokensFrom pos fresh s) :
    ∃ a c b r fresh', s = a ++ c :: (b ++ r) ∧ t.text = c :: b ∧ t.start = pos + a.length ∧
      isBlankByte c = false ∧ lexeme fresh' c (b ++ r) = (t.kind, b.length) := by
  match s with
  | [] =>
    rw [tokensFrom_nil] at h
    cases h
  | c :: s =>
    rcases tokensFrom_cases pos fresh c s with ⟨_, heq⟩ | ⟨hc, kind, b, r, rfl, hlex, heq⟩
    · rw [heq] at h
      obtain ⟨a, c', b, r, fresh', rfl, htext, hstart, hlex⟩ := exists_lexeme_of_mem h
      exact ⟨c :: a, c', b, r, fresh', rfl, htext, by rw [hstart, List.length_cons]; omega, hlex⟩
    · rw [heq] at h
      rcases List.mem_cons.1 h with rfl | h
      · exact ⟨[], c, b, r, fresh, rfl, rfl, rfl, hc, hlex⟩
      · obtain ⟨a, c', b', r', fresh', rfl, htext, hstart, hlex'⟩ := exists_lexeme_of_mem h
        refine ⟨c :: (b ++ a), c', b', r', fresh', by simp, htext, ?_, hlex'⟩
        rw [hstart]
        simp only [List.length_cons, List.length_append]
        omega
termination_by s.length

theorem isWord_of_letter {s : Bytes} {pos : Nat} {fresh : Bool} {t : Token}
    (h : t ∈ tokensFrom pos fresh s) (hletter : t.text.head?.any isLetterByte = true) :
    t.isWord = true := by
  obtain ⟨a, c, b, r, fresh', rfl, htext, -, -, hlex⟩ := exists_lexeme_of_mem h
  rw [htext] at hletter
  rw [lexeme_letter hletter] at hlex
  rw [Token.isWord, ← (Prod.mk.inj hlex).1]
  rfl

/-- What follows the keyword of a class: blanks, a comment or a sign that begins a word, and no semicolon
after blanks. -/
structure Apart (r : Bytes) : Prop where
  head : ∀ z, r.head? = some z → isBlankByte z = true ∨ z = '/'.toUInt8 ∨ z = '@'.toUInt8
  open_ : (r.dropWhile Text.isSpace).head? ≠ some ';'.toUInt8

theorem isBlankByte_of_isSpace {c : UInt8} (h : Text.isSpace c = true) : isBlankByte c = true := by
  have hc := Bytes.forall_byte (fun c => !Text.isSpace c || isBlankByte c) rfl c
  simpa [h] using hc

theorem slash_of_lexeme {c : UInt8} {s : Bytes} {k : Nat} {t : Token}
    (h : lexeme false c s = (t.kind, k)) (ht : t.isTrivia = true) : c = '/'.toUInt8 := by
  generalize hkind : t.kind = kind at h
  rw [Token.isTrivia, hkind] at ht
  cases lexed_of_lexeme h with
  | directive _ hfresh => cases hfresh
  | line hc => exact hc
  | comment hc => exact hc
  | _ => cases ht

theorem apart_of_keyword {pos : Nat} {fresh : Bool} {w r : Bytes} {k : Token} {after : List Token}
    (hne : w ≠ []) (hw : ∀ c ∈ w, isLetterByte c = true)
    (h : solid (tokensFrom pos fresh (w ++ r)) = k :: after) (hk : k.text = w)
    (hafter : after.head?.any (·.isWord) = true) : Apart r := by
  obtain ⟨c, w, rfl⟩ := List.exists_cons_of_ne_nil hne
  have hc := hw c List.mem_cons_self
  rcases tokensFrom_cases pos fresh c (w ++ r) with ⟨hblank, -⟩ | ⟨-, kind, b, rest, happ, hlex, heq⟩
  · exact absurd hblank (by rw [isBlankByte_of_isLetterByte hc]; exact Bool.false_ne_true)
  rw [lexeme_letter hc] at hlex
  obtain ⟨rfl, hsize⟩ := Prod.mk.inj hlex
  have hsolid : solid (tokensFrom pos fresh (c :: (w ++ r)))
      = ⟨.word, c :: b, pos⟩ :: solid (tokensFrom (pos + (c :: b).length) false rest) := by
    rw [heq]
    rfl
  rw [List.cons_append, hsolid] at h
  obtain ⟨rfl, rfl⟩ := List.cons.inj h
  obtain rfl : b = w := (List.cons.inj hk).2
  obtain rfl := List.append_cancel_left happ
  rw [← List.cons_append, wordSize_letters hw, List.length_cons] at hsize
  have hzero : wordSize r = 0 := by omega
  constructor
  · intro z hz
    obtain ⟨r, rfl⟩ := List.head?_eq_some_iff.1 hz
    rcases tokensFrom_cases (pos + (c :: b).length) false z r with ⟨hblank, -⟩ |
      ⟨-, kind, b', rest, rfl, hlex, heq⟩
    · exact Or.inl hblank
    right
    rw [heq] at hafter
    cases htrivia : (⟨kind, z :: b', pos + (c :: b).length⟩ : Token).isTrivia with
    | true => exact Or.inl (slash_of_lexeme (t := ⟨kind, z :: b', _⟩) hlex htrivia)
    | false =>
      right
      have hword : kind = .word := by
        rw [solid, List.filter_cons_of_pos (by rw [htrivia]; rfl)] at hafter
        simpa [Token.isWord] using hafter
      subst hword
      rcases wordSize_of_lexeme hlex with ⟨rfl, -⟩ | hsize
      · rfl
      · rw [hzero] at hsize
        cases hsize
  · intro hsemi
    obtain ⟨r', hr'⟩ := List.head?_eq_some_iff.1 hsemi
    have happ := List.takeWhile_append_dropWhile (p := Text.isSpace) (l := r)
    rw [hr'] at happ
    obtain ⟨fresh', heq⟩ := tokensFrom_blanks
      (fun x hx => isBlankByte_of_isSpace (List.mem_takeWhile_imp hx)) (';'.toUInt8 :: r')
      (pos + (c :: b).length) false
    rw [happ] at heq
    have hmark := fun pos => tokensFrom_mark (c := ';'.toUInt8) r' (by decide) (by decide) pos fresh'
    simp only [List.singleton_append] at hmark
    rw [heq, hmark] at hafter
    cases hafter

theorem append_inj_of_forall {p : Token → Bool} {as bs cs ds : List Token} (h : as ++ bs = cs ++ ds)
    (ha : ∀ x ∈ as, p x = true) (hb : ∀ x ∈ bs, p x = false) (hc : ∀ x ∈ cs, p x = true)
    (hd : ∀ x ∈ ds, p x = false) : as = cs ∧ bs = ds := by
  have hfilter := congrArg (List.filter p) h
  rw [List.filter_append, List.filter_append, List.filter_eq_self.2 ha, List.filter_eq_self.2 hc,
    List.filter_eq_nil_iff.2 fun x hx => by rw [hb x hx]; exact Bool.false_ne_true,
    List.filter_eq_nil_iff.2 fun x hx => by rw [hd x hx]; exact Bool.false_ne_true,
    List.append_nil, List.append_nil] at hfilter
  subst hfilter
  exact ⟨rfl, List.append_cancel_left h⟩

/-- Where the tokens of a text part in front of the token `u`, those that are no trivia part there too. -/
theorem solid_parts {s r : Bytes} {pos n : Nat} {fresh f : Bool} {ts P Q : List Token} {u : Token}
    (heq : tokensFrom pos fresh s = ts ++ tokensFrom n f r) (hts : ∀ t ∈ ts, t.stop ≤ n)
    (h : solid (tokensFrom pos fresh s) = P ++ u :: Q) (hu : u.start = n) :
    (∀ t ∈ P, t.stop ≤ n) ∧ (∀ t ∈ u :: Q, n < t.stop) ∧ solid ts = P ∧
      solid (tokensFrom n f r) = u :: Q := by
  have hpos : ∀ t ∈ P ++ u :: Q, t.start < t.stop := fun t ht =>
    (le_start_of_mem (mem_solid.1 (h ▸ ht)).1).2
  have hsorted : (P ++ u :: Q).Pairwise fun a b => a.stop ≤ b.start :=
    h ▸ (sorted_tokensFrom s pos fresh).filter _
  rw [List.pairwise_append, List.pairwise_cons] at hsorted
  have hP : ∀ t ∈ P, t.stop ≤ n := fun t ht => hu ▸ hsorted.2.2 t ht u List.mem_cons_self
  have hQ : ∀ t ∈ u :: Q, n < t.stop := fun t ht => by
    have htpos := hpos t (List.mem_append_right P ht)
    rcases List.mem_cons.1 ht with rfl | ht
    · omega
    · have hle := hsorted.2.1.1 t ht
      have hupos := hpos u (by simp)
      omega
  rw [heq, solid_append] at h
  obtain ⟨hfront, hback⟩ := append_inj_of_forall (p := fun t => decide (t.stop ≤ n)) h
    (fun t ht => decide_eq_true (hts t (mem_solid.1 ht).1))
    (fun t ht => decide_eq_false (by
      have := le_start_of_mem (mem_solid.1 ht).1
      omega))
    (fun t ht => decide_eq_true (hP t ht))
    (fun t ht => decide_eq_false (by
      have := hQ t ht
      omega))
  exact ⟨hP, hQ, hfront, hback⟩

/-- Where a token begins with a letter, the tokens in front of it do not depend on the letter. -/
theorem fronts_of_solid {pre r : Bytes} {x : UInt8} {P Q : List Token} {u : Token}
    (hx : isLetterByte x = true) (hsolid : solid (tokens (pre ++ x :: r)) = P ++ Q)
    (hu : Q.head? = some u) (hstart : u.start = pre.length) :
    EndsPlain pre ∧ (∀ t ∈ P, t.stop ≤ pre.length) ∧ (∀ t ∈ Q, pre.length < t.stop) ∧
      ∃ f, ∀ (y : UInt8) (r' : Bytes), isLetterByte y = true →
        solid (tokens (pre ++ y :: r')) = P ++ solid (tokensFrom pre.length f (y :: r')) := by
  obtain ⟨Q, rfl⟩ := List.head?_eq_some_iff.1 hu
  have hmem : u ∈ tokens (pre ++ x :: r) := (mem_solid.1 (by rw [hsolid]; simp)).1
  have hclean : Clean (tokensFrom 0 true (pre ++ x :: r)) (0 + pre.length) := by
    rw [Nat.zero_add, ← hstart]
    exact (clean_of_mem hmem).1
  obtain ⟨hplain, ts, f, hstop, hmore⟩ := tokensFrom_abutting r hx pre 0 true hclean
  rw [Nat.zero_add] at hstop hmore
  obtain ⟨hP, hQ, hts, -⟩ := solid_parts (hmore x r hx) hstop hsolid hstart
  exact ⟨hplain, hP, hQ, f, fun y r' hy => by rw [tokens, hmore y r' hy, solid_append, hts]⟩

/-- A text that begins with a letter is read alike wherever it stands. -/
theorem tokensFrom_letter {c : UInt8} (hc : isLetterByte c = true) (s : Bytes) (pos : Nat) (fresh : Bool) :
    tokensFrom pos fresh (c :: s) = (tokens (c :: s)).map (Token.shift pos) := by
  have hfresh : tokensFrom pos fresh (c :: s) = tokensFrom pos true (c :: s) := by
    apply tokensFrom_fresh
    intro t ht
    rcases tokensFrom_cases pos fresh c s with ⟨hblank, -⟩ | ⟨-, kind, b, r, rfl, hlex, heq⟩
    · rw [isBlankByte_of_isLetterByte hc] at hblank
      cases hblank
    · rw [heq] at ht
      cases ht
      apply not_is_of_text_ne
      intro htext
      exact ne_of_isLetterByte hc (by decide) (List.cons.inj htext).1
  have hshift := tokensFrom_shift (c :: s) 0 pos true
  rw [Nat.zero_add] at hshift
  rw [hfresh, hshift]
  rfl

theorem solid_letter {c : UInt8} (hc : isLetterByte c = true) (s : Bytes) (pos : Nat) (fresh : Bool) :
    solid (tokensFrom pos fresh (c :: s)) = (solid (tokens (c :: s))).map (Token.shift pos) := by
  rw [tokensFrom_letter hc, solid_shift]

/-- The tokens from one of a source on are those of the text that begins with it. -/
theorem tokens_drop {src : Bytes} {front after : List Token} {u : Token}
    (h : solid (tokens src) = front ++ u :: after) :
    ∃ f, solid (tokensFrom u.start f (src.drop u.start)) = u :: after ∧
      ∀ t ∈ tokensFrom u.start f (src.drop u.start), t ∈ tokens src := by
  have hmem : ∀ t ∈ front ++ u :: after, t ∈ tokens src := fun t ht => (mem_solid.1 (h ▸ ht)).1
  obtain ⟨f, hdrop⟩ := tokensFrom_drop src 0 true u.start (Nat.zero_le _) (clean_of_mem (hmem u (by simp))).1
  rw [Nat.sub_zero] at hdrop
  refine ⟨f, ?_, fun t ht => (List.mem_filter.1 (hdrop ▸ ht)).1⟩
  have hcomm : solid ((tokensFrom 0 true src).filter fun t => decide (u.start ≤ t.start))
      = (solid (tokens src)).filter fun t => decide (u.start ≤ t.start) := by
    simp only [solid, tokens, List.filter_filter, Bool.and_comm]
  have hsorted := sorted_solid src
  rw [h, List.pairwise_append, List.pairwise_cons] at hsorted
  have hpos : ∀ t ∈ front ++ u :: after, t.start < t.stop := fun t ht => (le_start_of_mem (hmem t ht)).2
  have hfront : front.filter (fun t => decide (u.start ≤ t.start)) = [] := by
    refine List.filter_eq_nil_iff.2 fun t ht => ?_
    have := hsorted.2.2 t ht u List.mem_cons_self
    have := hpos t (List.mem_append_left _ ht)
    simp only [decide_eq_true_eq]
    omega
  have hafter : (u :: after).filter (fun t => decide (u.start ≤ t.start)) = u :: after := by
    refine List.filter_eq_self.2 fun t ht => decide_eq_true ?_
    rcases List.mem_cons.1 ht with rfl | ht
    · exact Nat.le_refl _
    · have := hsorted.2.1.1 t ht
      have := hpos u (by simp)
      omega
  rw [hdrop, hcomm, h, List.filter_append, hfront, hafter, List.nil_append]

theorem solid_drop {src : Bytes} {front after : List Token} {u : Token}
    (h : solid (tokens src) = front ++ u :: after) :
    ∃ f, solid (tokensFrom u.start f (src.drop u.start)) = u :: after :=
  (tokens_drop h).imp fun _ => And.left

/-! ## The outline with other modifiers -/

def classWord : Bytes := "class"

theorem isLetterByte_of_mem_classWord : ∀ c ∈ classWord, isLetterByte c = true :=
  List.all_eq_true.1 rfl

theorem head?_modifierWords : ∀ w ∈ modifierWords, w.head?.any isLetterByte = true := by decide

theorem render_wordChunks (ws : List (WordOf modifierWords)) :
    render (wordChunks ws) = (ws.map (·.1)).flatMap (· ++ [0x20]) := by
  induction ws with
  | nil => rfl
  | cons w ws ih =>
    rw [List.map_cons, List.flatMap_cons, ← ih, List.append_assoc]
    rfl

/-- A modifier with the blanks after it. -/
structure SpacedWord where
  word : WordOf modifierWords
  gap : Bytes
  ne_nil : gap ≠ []
  blank : ∀ c ∈ gap, isBlankByte c = true

def SpacedWord.single (w : WordOf modifierWords) : SpacedWord where
  word := w
  gap := [0x20]
  ne_nil := List.cons_ne_nil _ _
  blank := List.forall_mem_singleton.2 rfl

def spacedChunks (ps : List SpacedWord) : List Chunk := ps.flatMap fun p => [.word p.word.1, .gap p.gap]

theorem spacedChunks_single (ws : List (WordOf modifierWords)) :
    spacedChunks (ws.map .single) = wordChunks ws := by
  rw [spacedChunks, List.flatMap_map]
  rfl

theorem stops_blank {b : UInt8} (h : isBlankByte b = true) (r : Bytes) : Stops (b :: r) := by
  have hb := Bytes.forall_byte (fun c => !isBlankByte c || isStop c) (by decide) b
  exact stops_cons r (by simpa [h] using hb)

/-- A modifier ends where its blanks begin. -/
theorem SpacedWord.stops (p : SpacedWord) (r : Bytes) : Stops (p.gap ++ r) := by
  obtain ⟨c, g, hg⟩ := List.exists_cons_of_ne_nil p.ne_nil
  rw [hg]
  exact stops_blank (p.blank c (by rw [hg]; exact List.mem_cons_self)) _

theorem stands_spaced (ps : List SpacedWord) (r : Bytes) :
    Each (fun r p => p.Stands r) (spacedChunks ps) r := by
  induction ps with
  | nil => trivial
  | cons p ps ih =>
    refine ⟨⟨isWord_modifierWords _ p.word.2, ?_⟩, p.blank, ih⟩
    exact (List.append_assoc ..).symm ▸ p.stops _

theorem isModifier_place_spaced (ps : List SpacedWord) (pos : Nat) :
    ∀ t ∈ place pos (spacedChunks ps), isModifier t = true := by
  induction ps generalizing pos with
  | nil => intro t ht; cases ht
  | cons p ps ih =>
    intro t ht
    rcases List.mem_cons.1 ht with rfl | ht
    · rw [isModifier, isWordOf, List.contains_iff_mem.2 p.word.2]
      rfl
    · exact ih _ t ht

theorem map_text_place_spaced (ps : List SpacedWord) (pos : Nat) :
    (place pos (spacedChunks ps)).map (·.text) = ps.map (·.word.1) := by
  induction ps generalizing pos with
  | nil => rfl
  | cons p ps ih => exact congrArg (p.word.1 :: ·) (ih _)

theorem exists_letter_spaced (ps : List SpacedWord) (r : Bytes) :
    ∃ c s, render (spacedChunks ps) ++ (classWord ++ r) = c :: s ∧ isLetterByte c = true := by
  cases ps with
  | nil => exact ⟨'c'.toUInt8, _, rfl, by decide⟩
  | cons p ps =>
    have hletter := head?_modifierWords p.word.1 p.word.2
    obtain ⟨c, hc, hletter⟩ := (Option.any_eq_true _ _).1 hletter
    obtain ⟨s, hs⟩ := List.head?_eq_some_iff.1 hc
    refine ⟨c, s ++ (p.gap ++ (render (spacedChunks ps) ++ (classWord ++ r))), ?_, hletter⟩
    have hrender : render (spacedChunks (p :: ps)) = p.word.1 ++ (p.gap ++ render (spacedChunks ps)) := rfl
    rw [hrender, hs]
    simp

theorem exists_letter (ws : List (WordOf modifierWords)) (r : Bytes) :
    ∃ c s, render (wordChunks ws) ++ (classWord ++ r) = c :: s ∧ isLetterByte c = true := by
  rw [← spacedChunks_single]
  exact exists_letter_spaced _ r

theorem solid_modifiers (ps : List SpacedWord) (r : Bytes) (pos : Nat) (fresh : Bool) :
    solid (tokensFrom pos fresh (render (spacedChunks ps) ++ (classWord ++ r)))
      = place pos (spacedChunks ps) ++ (solid (tokens (classWord ++ r))).map
          (Token.shift (pos + (render (spacedChunks ps)).length)) := by
  obtain ⟨fresh', heq⟩ := solid_render (stands_spaced ps (classWord ++ r)) pos fresh
  rw [heq]
  exact congrArg _ (solid_letter (c := 'c'.toUInt8) (by decide) _ _ fresh')

theorem slice_append_right (a s : Bytes) (x y : Nat) :
    (a ++ s).slice (x + a.length) (y + a.length) = s.slice x y := by
  rw [Bytes.slice, Bytes.slice, Nat.add_sub_add_right, Nat.add_comm x, ← List.drop_drop, List.drop_left]

theorem cutsAlike_append (a s s' : Bytes) : CutsAlike a.length (a ++ s).slice (a ++ s').slice := by
  intro x y hy
  have hcut : ∀ s : Bytes, (a ++ s).slice x y = a.slice x y := fun s => by
    by_cases hxy : x ≤ y
    · rw [Bytes.slice, Bytes.slice, List.drop_append_of_le_length (by omega),
        List.take_append_of_le_length (by rw [List.length_drop]; omega)]
    · rw [Bytes.slice, Bytes.slice, Nat.sub_eq_zero_of_le (by omega), List.take_zero, List.take_zero]
  rw [hcut, hcut]

/-- A mark behind which the word `class` declares nothing. -/
def Token.barsClass (t : Token) : Bool := t.is ":" || t.is "," || t.is "."

theorem barsClass_of_isModifier {t : Token} (h : isModifier t = true) : t.barsClass = false := by
  rw [isModifier, isWordOf, Bool.and_eq_true, List.contains_iff_mem] at h
  have hnot : ∀ w ∈ ([":", ",", "."] : List Bytes), t.is w = false := fun w hw => by
    have hall : ∀ w ∈ ([":", ",", "."] : List Bytes), w ∉ modifierWords := by decide
    exact not_is_of_text_ne fun htext => hall w hw (htext ▸ h.2)
  rw [Token.barsClass, hnot ":" (by decide), hnot "," (by decide), hnot "." (by decide)]
  rfl

theorem beginsClass_iff {before after : List Token} : beginsClass before after = true ↔
    after.head?.any (·.isWord) = true ∧ ∀ t, before.head? = some t → t.barsClass = false := by
  unfold beginsClass
  cases before with
  | nil => simp
  | cons t before => simp [Token.barsClass]

def classToken : Token := ⟨.word, classWord, 0⟩

/-- Where the class of a source stands: behind the text `pre` with the tokens `P`, the text `head` with its
modifiers and the keyword, in front of `r`. -/
structure ClassAt (text : Bytes) (c : Class) (pre head r : Bytes) (P : List Token) : Prop where
  text_eq : text = pre ++ (head ++ (classWord ++ r))
  start : c.start = pre.length
  keywordStart : c.keywordStart = pre.length + head.length
  plain : EndsPlain pre
  apart : Apart r
  front : (solid (tokens text)).filter (fun t => decide (t.stop ≤ c.start)) = P
  last : ∀ t, P.getLast? = some t → isModifier t = false
  comes : ∀ (s : Bytes) (trivia : List Token), Comes (pre ++ s).slice trivia {} [] P
  fronts : ∃ f, ∀ (y : UInt8) (s : Bytes), isLetterByte y = true →
    solid (tokens (pre ++ y :: s)) = P ++ solid (tokensFrom pre.length f (y :: s))
  header : ∃ H, solid (tokens text) = P ++ (H ++ (solid (tokens (classWord ++ r))).map
      (Token.shift (pre.length + head.length))) ∧
    (∀ t ∈ H, isModifier t = true) ∧ c.modifiers = H.map (·.text) ∧
    (H.head?.map (·.start)).getD c.keywordStart = c.start
  read : ∃ after before trivia, solid (tokens (classWord ++ r)) = classToken :: after ∧
    after.head?.any (·.isWord) = true ∧
    (classOf (classWord ++ r).slice trivia before classToken after).map Class.bare = .ok c.bare

/-- The modifiers in front of a keyword are found behind what is no modifier. -/
theorem takeWhile_reverse_append {M P : List Token} (hM : ∀ t ∈ M, isModifier t = true)
    (hP : ∀ t, P.getLast? = some t → isModifier t = false) :
    (M.reverse ++ P.reverse).takeWhile isModifier = M.reverse := by
  rw [List.takeWhile_append_of_pos fun t ht => hM t (List.mem_reverse.1 ht)]
  cases hlast : P.getLast? with
  | none =>
    rw [List.getLast?_eq_none_iff.1 hlast, List.reverse_nil, List.takeWhile_nil, List.append_nil]
  | some t =>
    obtain ⟨ts, rfl⟩ := List.getLast?_eq_some_iff.1 hlast
    rw [List.reverse_concat, List.takeWhile_cons_of_neg (by rw [hP t hlast]; exact Bool.false_ne_true),
      List.append_nil]

/-- **A class behind other modifiers.** -/
theorem ClassAt.rehead {text pre head r : Bytes} {c : Class} {P : List Token}
    (h : ClassAt text c pre head r P) (ps : List SpacedWord)
    (hfree : ps = [] → ∀ t, P.getLast? = some t → t.barsClass = false) :
    ∃ o' c', outline (pre ++ (render (spacedChunks ps) ++ (classWord ++ r))) = .ok o' ∧
      o'.class? = some c' ∧ c'.modifiers = ps.map (·.word.1) ∧ c'.start = pre.length ∧
      c'.keywordStart = pre.length + (render (spacedChunks ps)).length ∧ c'.bare = c.bare := by
  obtain ⟨f, hfronts⟩ := h.fronts
  obtain ⟨after, before, trivia, hsolid, hword, hread⟩ := h.read
  obtain ⟨y, s, hletter, hy⟩ := exists_letter_spaced ps r
  have htokens : solid (tokens (pre ++ (render (spacedChunks ps) ++ (classWord ++ r))))
      = P ++ (place pre.length (spacedChunks ps)
        ++ (classToken.shift (pre.length + (render (spacedChunks ps)).length)
          :: after.map (Token.shift (pre.length + (render (spacedChunks ps)).length)))) := by
    rw [hletter, hfronts y s hy, ← hletter, solid_modifiers, hsolid]
    rfl
  have hmods := isModifier_place_spaced ps pre.length
  have hcut : ∀ x y, (pre ++ (render (spacedChunks ps) ++ (classWord ++ r))).slice
      (x + (pre.length + (render (spacedChunks ps)).length))
      (y + (pre.length + (render (spacedChunks ps)).length)) = (classWord ++ r).slice x y := fun x y => by
    rw [← List.append_assoc, ← List.length_append]
    exact slice_append_right _ _ x y
  -- the class is read alike from the tokens after its keyword
  have hclass := classOf_shift hcut trivia
    ((tokens (pre ++ (render (spacedChunks ps) ++ (classWord ++ r)))).filter (·.isTrivia)) before
    ((place pre.length (spacedChunks ps)).reverse ++ (P.reverse ++ [])) classToken
    (classToken.shift (pre.length + (render (spacedChunks ps)).length)) after
  rw [hread] at hclass
  obtain ⟨c', hread', hbare⟩ := map_eq_ok hclass
  have hbegins : beginsClass ((place pre.length (spacedChunks ps)).reverse ++ (P.reverse ++ []))
      (after.map (Token.shift (pre.length + (render (spacedChunks ps)).length))) = true := by
    rw [beginsClass_iff, any_isWord_shift, List.append_nil, ← List.reverse_append, List.head?_reverse]
    refine ⟨hword, fun t ht => ?_⟩
    by_cases hps : ps = []
    · rw [hps] at ht
      rw [show place pre.length (spacedChunks []) = [] from rfl, List.append_nil] at ht
      exact hfree hps t ht
    · have hne : place pre.length (spacedChunks ps) ≠ [] := by
        obtain ⟨p, ps, rfl⟩ := List.exists_cons_of_ne_nil hps
        exact List.cons_ne_nil _ _
      rw [List.getLast?_append, List.getLast?_eq_some_getLast hne, Option.some_or] at ht
      exact barsClass_of_isModifier (hmods t (Option.some.inj ht ▸ List.getLast_mem hne))
  obtain ⟨o', ho', hc'⟩ := h.comes _ _ _ (classToken.shift _) _ c' hmods rfl rfl hbegins hread'
  obtain ⟨hmodifiers, hstart, hkeyword⟩ := classOf_header hread'
  rw [List.append_nil, takeWhile_reverse_append hmods h.last] at hmodifiers hstart
  rw [List.reverse_reverse, map_text_place_spaced] at hmodifiers
  rw [List.getLast?_reverse] at hstart
  refine ⟨o', c', ?_, hc', hmodifiers, ?_, ?_, hbare⟩
  · rw [← htokens] at ho'
    exact ho'
  · rw [hstart]
    cases ps with
    | nil => exact (Nat.zero_add _)
    | cons p ps => rfl
  · rw [hkeyword]
    exact Nat.zero_add _

/-- The keyword of a class is read where its text stands, and what follows it does not depend on the place. -/
theorem exists_keyword {text r : Bytes} {front after : List Token} {keyword : Token}
    (h : solid (tokens text) = front ++ keyword :: after) (hdrop : text.drop keyword.start = classWord ++ r)
    (htext : keyword.text = classWord) (hword : after.head?.any (·.isWord) = true) :
    ∃ after₀, Apart r ∧ solid (tokens (classWord ++ r)) = classToken :: after₀ ∧
      keyword = classToken.shift keyword.start ∧ after = after₀.map (Token.shift keyword.start) := by
  obtain ⟨f, hsolid⟩ := solid_drop h
  rw [hdrop] at hsolid
  have hmem : keyword ∈ tokensFrom keyword.start f (classWord ++ r) := by
    refine (mem_solid.1 ?_).1
    rw [hsolid]
    exact List.mem_cons_self
  have hletter : solid (tokensFrom keyword.start f (classWord ++ r))
      = (solid (tokens (classWord ++ r))).map (Token.shift keyword.start) :=
    solid_letter (c := 'c'.toUInt8) (by decide) _ _ f
  have hapart := apart_of_keyword (by decide) isLetterByte_of_mem_classWord hsolid htext hword
  rw [hletter] at hsolid
  obtain ⟨k₀, after₀, hk, hkeyword, rfl⟩ := List.map_eq_cons_iff.1 hsolid
  have hk₀ : k₀ = classToken := by
    have hisWord := isWord_of_letter hmem (by rw [htext]; decide)
    have hstart := congrArg Token.start hkeyword
    rw [← hkeyword] at htext hisWord
    cases k₀ with
    | mk kind text start =>
      simp only [Token.shift_text, Token.shift_start, Token.shift_isWord] at htext hstart hisWord
      simp only [Token.isWord, beq_iff_eq] at hisWord
      rw [hisWord, htext, show start = 0 by omega]
      rfl
  subst hk₀
  exact ⟨after₀, hapart, hk, hkeyword.symm, rfl⟩

/-- The tokens of a source: those in front of a class, its modifiers, its keyword, and what follows. -/
structure ClassTokens (text : Bytes) (P H : List Token) (keyword : Token) (after : List Token) : Prop where
  solid_eq : solid (tokens text) = P ++ (H ++ keyword :: after)
  last : ∀ t, P.getLast? = some t → isModifier t = false
  modifiers : ∀ t ∈ H, isModifier t = true
  keyword_eq : keyword.text = classWord

/-- Where the modifiers of a class begin, or its keyword when it has none. -/
def headerStart (H : List Token) (keyword : Token) : Nat := (H.head?.map (·.start)).getD keyword.start

theorem exists_classTokens {text : Bytes} {front after : List Token} {keyword : Token}
    (hsolid : solid (tokens text) = front ++ keyword :: after) (hkey : keyword.text = classWord) :
    ∃ P H, front = P ++ H ∧ (front.reverse.takeWhile isModifier).reverse = H ∧
      ClassTokens text P H keyword after := by
  have hfront : front = (front.reverse.dropWhile isModifier).reverse
      ++ (front.reverse.takeWhile isModifier).reverse := by
    rw [← List.reverse_append, List.takeWhile_append_dropWhile, List.reverse_reverse]
  refine ⟨_, _, hfront, rfl, ?_, fun t ht => ?_, fun t ht => ?_, hkey⟩
  · rw [← List.append_assoc, ← hfront, hsolid]
  · have hhead := List.head?_dropWhile_not isModifier front.reverse
    rw [List.getLast?_reverse] at ht
    rw [ht] at hhead
    simpa using hhead
  · exact List.mem_takeWhile_imp (List.mem_reverse.1 ht)

namespace ClassTokens

variable {text : Bytes} {P H after : List Token} {keyword : Token}

theorem keyword_mem (h : ClassTokens text P H keyword after) : keyword ∈ tokens text :=
  mem_of_solid h.solid_eq (by simp)

theorem exists_first (h : ClassTokens text P H keyword after) :
    ∃ u, (H ++ keyword :: after).head? = some u ∧ u.start = headerStart H keyword ∧
      u.text.head?.any isLetterByte = true := by
  cases H with
  | nil => exact ⟨keyword, rfl, rfl, by rw [h.keyword_eq]; decide⟩
  | cons v H =>
    have hmod := h.modifiers v List.mem_cons_self
    rw [isModifier, isWordOf, Bool.and_eq_true, List.contains_iff_mem] at hmod
    exact ⟨v, rfl, rfl, head?_modifierWords _ hmod.2⟩

theorem headerStart_le (h : ClassTokens text P H keyword after) : headerStart H keyword ≤ keyword.start := by
  cases H with
  | nil => exact Nat.le_refl _
  | cons v H =>
    have hsorted := sorted_solid text
    rw [h.solid_eq, List.pairwise_append] at hsorted
    have hle : v.stop ≤ keyword.start := (List.pairwise_cons.1 hsorted.2.1).1 keyword (by simp)
    have hpos := start_lt_of_solid h.solid_eq (t := v) (by simp)
    change v.start ≤ keyword.start
    omega

/-- The text of a source: what stands in front of its class, the modifiers, the keyword, and what follows. -/
theorem exists_text (h : ClassTokens text P H keyword after) : ∃ pre head r,
    text = pre ++ (head ++ (classWord ++ r)) ∧ headerStart H keyword = pre.length ∧
      keyword.start = pre.length + head.length ∧ EndsPlain pre ∧ (∀ t ∈ P, t.stop ≤ pre.length) ∧
      (∀ t ∈ H ++ keyword :: after, pre.length < t.stop) ∧
      ∃ f, ∀ (y : UInt8) (s : Bytes), isLetterByte y = true →
        solid (tokens (pre ++ y :: s)) = P ++ solid (tokensFrom pre.length f (y :: s)) := by
  obtain ⟨a, k, b, r, -, hkey, hktext, hkpos, -, -⟩ := exists_lexeme_of_mem h.keyword_mem
  obtain ⟨u, hu, hustart, huletter⟩ := h.exists_first
  obtain ⟨pre, x, b', r', -, hfirst, hutext, hupos, -, -⟩ :=
    exists_lexeme_of_mem (mem_of_solid h.solid_eq (List.mem_append_right _ (List.mem_of_head? hu)))
  rw [Nat.zero_add] at hkpos hupos
  have hle := h.headerStart_le
  obtain ⟨head, rfl⟩ : pre <+: a :=
    List.prefix_of_prefix_length_le ⟨_, hfirst.symm⟩ ⟨_, hkey.symm⟩ (by omega)
  rw [hutext] at huletter
  have hsolid := h.solid_eq
  rw [hfirst] at hsolid
  obtain ⟨hplain, hP, hQ, hfronts⟩ := fronts_of_solid huletter hsolid hu hupos
  refine ⟨pre, head, r, ?_, by omega, by rw [hkpos, List.length_append], hplain, hP, hQ, hfronts⟩
  rw [hkey, ← h.keyword_eq, hktext, List.append_assoc]
  rfl

end ClassTokens

/-- **Where the class of a source stands.** -/
theorem exists_classAt {text : Bytes} {o : Outline} {c : Class} (h : outline text = .ok o)
    (hc : o.class? = some c) : ∃ pre head r P, ClassAt text c pre head r P := by
  have hclass : ∀ t ∈ solid (tokens text), t.is "class" = true → t.isWord = true := fun t ht hkey => by
    simp only [Token.is, Bool.and_eq_true, beq_iff_eq] at hkey
    exact isWord_of_letter (mem_solid.1 ht).1 (by rw [hkey.2]; decide)
  obtain ⟨front, keyword, after, hsolid, hkey, hbegins, hread, hcomes⟩ :=
    finds_of_outlineFrom (n := c.start) h rfl hc hclass
  rw [List.append_nil] at hbegins hread
  obtain ⟨hmodifiers, hstart, hkeyword⟩ := classOf_header hread
  have htext : keyword.text = classWord := by
    simp only [Token.is, Bool.and_eq_true, beq_iff_eq] at hkey
    exact hkey.2
  obtain ⟨P, H, hfront, hH, htokens⟩ := exists_classTokens hsolid htext
  rw [hH] at hmodifiers
  rw [← List.head?_reverse, hH] at hstart
  obtain ⟨pre, head, r, htextall, hpre, hkpos, hplain, hP, hQ, hfronts⟩ := htokens.exists_text
  have hstartpre : c.start = pre.length := hstart.trans hpre
  have hdrop : text.drop keyword.start = classWord ++ r := by
    rw [hkpos, htextall, ← List.append_assoc, ← List.length_append, List.drop_left]
  -- what follows the keyword is read as it is at the beginning of a text
  obtain ⟨after₀, hapart, hread₀, hkshift, rfl⟩ := exists_keyword hsolid hdrop htext (beginsClass_iff.1 hbegins).1
  have hcut : ∀ x y, text.slice (x + keyword.start) (y + keyword.start) = (classWord ++ r).slice x y :=
    fun x y => by
      rw [htextall, hkpos, ← List.append_assoc, ← List.length_append]
      exact slice_append_right _ _ x y
  refine ⟨pre, head, r, P, htextall, hstartpre, by rw [hkeyword, hkpos], hplain, hapart, ?_, htokens.last,
    fun s trivia => ?_, hfronts, ⟨H, ?_, htokens.modifiers, hmodifiers, by rw [hstart, hkeyword]⟩,
    after₀, front.reverse, (tokens text).filter (·.isTrivia), hread₀,
    by rw [← any_isWord_shift]; exact (beginsClass_iff.1 hbegins).1, ?_⟩
  · rw [htokens.solid_eq, List.filter_append, List.filter_eq_self.2 fun t ht => decide_eq_true ?_,
      List.filter_eq_nil_iff.2 fun t ht => ?_, List.append_nil]
    · have := hQ t ht
      rw [hstartpre, decide_eq_true_eq]
      omega
    · rw [hstartpre]
      exact hP t ht
  · apply hcomes P H hfront htokens.modifiers (fun t ht => by rw [hstartpre]; exact hP t ht)
    rw [hstartpre, htextall]
    exact cutsAlike_append pre _ s
  · rw [htokens.solid_eq, hread₀, ← hkpos, List.map_cons, ← hkshift]
  · rw [← classOf_shift hcut _ _ _ front.reverse classToken _ after₀, hread]
    rfl

/-- Where the class of a source stands: behind the text `pre` with the tokens `P`, the modifiers `ws` and
the keyword, in front of `r`. -/
structure ClassPlace (text : Bytes) (c : Class) (pre r : Bytes) (ws : List (WordOf modifierWords))
    (P : List Token) : Prop extends ClassAt text c pre (render (wordChunks ws)) r P where
  modifiers : c.modifiers = ws.map (·.1)

/-- A class behind other modifiers with a space after each. -/
theorem ClassPlace.rehead {text pre r : Bytes} {c : Class} {ws : List (WordOf modifierWords)}
    {P : List Token} (h : ClassPlace text c pre r ws P) (ws' : List (WordOf modifierWords))
    (hfree : ws' = [] → ∀ t, P.getLast? = some t → t.barsClass = false) :
    ∃ o' c', outline (pre ++ (render (wordChunks ws') ++ (classWord ++ r))) = .ok o' ∧
      o'.class? = some c' ∧ c'.modifiers = ws'.map (·.1) ∧ c'.start = pre.length ∧
      c'.keywordStart = pre.length + (render (wordChunks ws')).length ∧ c'.bare = c.bare := by
  have hrehead := h.toClassAt.rehead (ws'.map .single) fun hnil => hfree (List.map_eq_nil_iff.1 hnil)
  rw [spacedChunks_single, List.map_map] at hrehead
  exact hrehead

/-- The modifiers of a class stand between its offsets. -/
theorem ClassAt.slice_eq {text pre head r : Bytes} {c : Class} {P : List Token}
    (h : ClassAt text c pre head r P) : text.slice c.start c.keywordStart = head := by
  rw [h.start, h.keywordStart, h.text_eq, Bytes.slice, List.drop_left, Nat.add_sub_cancel_left,
    List.take_left]

theorem ClassAt.modifiers_mem {text pre head r : Bytes} {c : Class} {P : List Token}
    (h : ClassAt text c pre head r P) : ∀ w ∈ c.modifiers, w ∈ modifierWords := by
  obtain ⟨H, -, hmods, heq, -⟩ := h.header
  intro w hw
  rw [heq] at hw
  obtain ⟨t, ht, rfl⟩ := List.mem_map.1 hw
  have hmod := hmods t ht
  rw [isModifier, isWordOf, Bool.and_eq_true, List.contains_iff_mem] at hmod
  exact hmod.2

/-- **Where the class of a source stands**, when one space follows each of its modifiers. -/
theorem exists_classPlace {text : Bytes} {o : Outline} {c : Class} (h : outline text = .ok o)
    (hc : o.class? = some c)
    (hheader : text.slice c.start c.keywordStart = c.modifiers.flatMap (· ++ [0x20])) :
    ∃ pre r ws P, ClassPlace text c pre r ws P := by
  obtain ⟨pre, head, r, P, hat⟩ := exists_classAt h hc
  obtain ⟨ws, hws⟩ : ∃ ws : List (WordOf modifierWords), ws.map (·.1) = c.modifiers :=
    ⟨c.modifiers.attachWith _ hat.modifiers_mem, List.attachWith_map_subtype_val hat.modifiers_mem⟩
  rw [hat.slice_eq, ← hws, ← render_wordChunks] at hheader
  subst hheader
  exact ⟨pre, r, ws, P, hat, hws.symm⟩

end Flowsmith.Source
