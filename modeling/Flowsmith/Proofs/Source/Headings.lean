import Flowsmith.Proofs.Source.Reheaded

/-!
# Headings

The using directives and namespaces that are read in front of the class of a source, and how the walk
over the tokens comes to them.

* `Heading`, `headingsFrom`, `headings` : the headings with the tokens they consist of;
* `outlineFrom_usings_eq`, `outlineFrom_space_eq` : an outline holds what its headings declare;
* `Leads` : tokens that the walk passes in the same way whatever follows them;
* `Approach`, `exists_approach` : such tokens lead to every heading;
* `Outline.face` : an outline without what depends on its place; `outlineFrom_shift` : the walk over the
  same tokens in another place.
-/

namespace Flowsmith.Source

/-! ## The headings of a source -/

/-- A using directive or a namespace in front of the class of a source. -/
structure Heading where
  /-- The token in front of the keyword. -/
  front : Option Token
  keyword : Token
  /-- The tokens between the keyword and the mark that ends the heading. -/
  target : List Token
  deriving DecidableEq

def Heading.isUsing (h : Heading) : Bool := h.keyword.is "using"

/-- The headings that the walk over `ts` reads when it has found the namespace `space`; `before` are the
tokens in front, in reverse. -/
def headingsFrom (cut : Nat → Nat → Bytes) (space : Bytes) (before ts : List Token) : List Heading :=
  match ts with
  | [] => []
  | t :: rest =>
    if t.is "using" && rest.head?.any (·.isWord) then
      let target := rest.takeWhile (!·.is ";")
      ⟨before.head?, t, target⟩ :: headingsFrom cut space
        ((rest.take (target.length + 1)).reverse ++ t :: before) (rest.drop (target.length + 1))
    else if t.is "namespace" && space.isEmpty then
      let name := rest.takeWhile fun t => !(t.is Bytes.leftBrace || t.is ";")
      ⟨before.head?, t, name⟩ :: headingsFrom cut (flat cut name)
        ((rest.take (name.length + 1)).reverse ++ t :: before) (rest.drop (name.length + 1))
    else if t.is "class" && beginsClass before rest then []
    else headingsFrom cut space (t :: before) rest
termination_by ts.length

theorem outline_eq (src : Bytes) : outline src
    = outlineFrom src.slice ((tokens src).filter (·.isTrivia)) {} [] (solid (tokens src)) := rfl

def headings (src : Bytes) : List Heading := headingsFrom src.slice [] [] (solid (tokens src))

/-- The targets of the using directives among headings, as an outline lists them. -/
def usingsOf (cut : Nat → Nat → Bytes) (hs : List Heading) : List Bytes :=
  (hs.filter (·.isUsing)).map fun h => flat cut h.target

theorem usingsOf_append (cut : Nat → Nat → Bytes) (hs hs' : List Heading) :
    usingsOf cut (hs ++ hs') = usingsOf cut hs ++ usingsOf cut hs' := by
  rw [usingsOf, List.filter_append, List.map_append]
  rfl

theorem usingsOf_cons_using (cut : Nat → Nat → Bytes) {h : Heading} (hs : List Heading)
    (hu : h.isUsing = true) : usingsOf cut (h :: hs) = flat cut h.target :: usingsOf cut hs := by
  rw [usingsOf, List.filter_cons_of_pos hu]
  rfl

theorem usingsOf_cons_space (cut : Nat → Nat → Bytes) {h : Heading} (hs : List Heading)
    (hu : h.isUsing = false) : usingsOf cut (h :: hs) = usingsOf cut hs := by
  rw [usingsOf, List.filter_cons_of_neg (by rw [hu]; exact Bool.false_ne_true)]
  rfl

theorem is_unique {t : Token} {w w' : Bytes} (h : t.is w = true) (hne : w ≠ w') : t.is w' = false := by
  simp only [Token.is, Bool.and_eq_true, beq_iff_eq] at h
  exact not_is_of_text_ne (by rw [h.2]; exact hne)

theorem isUsing_space {t : Token} (front : Option Token) (ts : List Token)
    (h : t.is "namespace" = true) : Heading.isUsing ⟨front, t, ts⟩ = false :=
  is_unique h (by decide)

theorem outlineFrom_usings_eq {cut : Nat → Nat → Bytes} {trivia before ts : List Token}
    {found o : Outline} (h : outlineFrom cut trivia found before ts = .ok o) :
    o.usings = found.usings ++ usingsOf cut (headingsFrom cut found.space before ts) := by
  fun_induction outlineFrom cut trivia found before ts with
  | case1 =>
    cases h
    rw [headingsFrom]
    exact (List.append_nil _).symm
  | case2 found before t rest husing target ih =>
    have hkey : t.is "using" = true := ((Bool.and_eq_true _ _).mp husing).1
    rw [headingsFrom, if_pos husing, usingsOf_cons_using cut _ (show Heading.isUsing ⟨_, t, _⟩ = true from hkey),
      ih h, List.append_assoc]
    rfl
  | case3 found before t rest husing hspace name ih =>
    have hkey : t.is "namespace" = true := ((Bool.and_eq_true _ _).mp hspace).1
    rw [headingsFrom, if_neg husing, if_pos hspace, usingsOf_cons_space cut _ (isUsing_space _ _ hkey)]
    exact ih h
  | case4 found before t rest husing hspace hclass =>
    obtain ⟨c, -, rfl⟩ := map_eq_ok h
    rw [headingsFrom, if_neg husing, if_neg hspace, if_pos hclass]
    exact (List.append_nil _).symm
  | case5 found before t rest husing hspace hclass ih =>
    rw [headingsFrom, if_neg husing, if_neg hspace, if_neg hclass]
    exact ih h

/-- An outline keeps the first namespace with a name. -/
theorem outlineFrom_space_eq {cut : Nat → Nat → Bytes} {trivia before ts : List Token}
    {found o : Outline} (h : outlineFrom cut trivia found before ts = .ok o) :
    (found.space ≠ [] → o.space = found.space) ∧
    ∀ d ∈ headingsFrom cut found.space before ts, d.isUsing = false → flat cut d.target ≠ [] →
      o.space = flat cut d.target := by
  fun_induction outlineFrom cut trivia found before ts with
  | case1 =>
    cases h
    rw [headingsFrom]
    exact ⟨fun _ => rfl, by simp⟩
  | case2 found before t rest husing target ih =>
    obtain ⟨hkept, hmore⟩ := ih h
    rw [headingsFrom, if_pos husing]
    refine ⟨hkept, fun d hd hspace => ?_⟩
    rcases List.mem_cons.1 hd with rfl | hd
    · rw [Heading.isUsing, ((Bool.and_eq_true _ _).mp husing).1] at hspace
      cases hspace
    · exact hmore d hd hspace
  | case3 found before t rest husing hspace name ih =>
    obtain ⟨hkept, hmore⟩ := ih h
    rw [headingsFrom, if_neg husing, if_pos hspace]
    refine ⟨fun hne => ?_, fun d hd hnot hname => ?_⟩
    · rw [Bool.and_eq_true, List.isEmpty_iff] at hspace
      exact absurd hspace.2 hne
    · rcases List.mem_cons.1 hd with rfl | hd
      · exact hkept hname
      · exact hmore d hd hnot hname
  | case4 found before t rest husing hspace hclass =>
    obtain ⟨c, -, rfl⟩ := map_eq_ok h
    rw [headingsFrom, if_neg husing, if_neg hspace, if_pos hclass]
    exact ⟨fun _ => rfl, by simp⟩
  | case5 found before t rest husing hspace hclass ih =>
    rw [headingsFrom, if_neg husing, if_neg hspace, if_neg hclass]
    exact ih h

theorem keyword_mem {cut : Nat → Nat → Bytes} {space : Bytes} {before ts : List Token} {d : Heading}
    (h : d ∈ headingsFrom cut space before ts) :
    d.keyword ∈ ts ∧ (d.keyword.is "using" = true ∨ d.keyword.is "namespace" = true) := by
  fun_induction headingsFrom cut space before ts with
  | case1 => cases h
  | case2 space before t rest husing target ih =>
    rcases List.mem_cons.1 h with rfl | h
    · exact ⟨List.mem_cons_self, .inl ((Bool.and_eq_true _ _).mp husing).1⟩
    · exact ⟨List.mem_cons_of_mem _ (List.mem_of_mem_drop (ih h).1), (ih h).2⟩
  | case3 space before t rest husing hspace name ih =>
    rcases List.mem_cons.1 h with rfl | h
    · exact ⟨List.mem_cons_self, .inr ((Bool.and_eq_true _ _).mp hspace).1⟩
    · exact ⟨List.mem_cons_of_mem _ (List.mem_of_mem_drop (ih h).1), (ih h).2⟩
  | case4 => cases h
  | case5 space before t rest husing hspace hclass ih =>
    exact ⟨List.mem_cons_of_mem _ (ih h).1, (ih h).2⟩

theorem isWord_keyword {src : Bytes} {d : Heading} (h : d ∈ headings src) : d.keyword.isWord = true := by
  obtain ⟨hmem, hkey⟩ := keyword_mem h
  have htext : d.keyword.text = "using" ∨ d.keyword.text = "namespace" := by
    simp only [Token.is, Bool.and_eq_true, beq_iff_eq] at hkey
    exact hkey.imp And.right And.right
  refine isWord_of_letter (mem_solid.1 hmem).1 ?_
  rcases htext with htext | htext <;> rw [htext] <;> decide

/-! ## The walk to a heading -/

/-- The walk passes the tokens `P` and has found `found'` then, whatever follows them. -/
def Leads (cut : Nat → Nat → Bytes) (found : Outline) (before P : List Token) (found' : Outline) : Prop :=
  ∀ (trivia Q : List Token),
    outlineFrom cut trivia found before (P ++ Q) = outlineFrom cut trivia found' (P.reverse ++ before) Q

theorem leads_nil (cut : Nat → Nat → Bytes) (found : Outline) (before : List Token) :
    Leads cut found before [] found := fun _ _ => rfl

theorem Leads.append {cut : Nat → Nat → Bytes} {found found₁ found₂ : Outline} {before P P' : List Token}
    (h : Leads cut found before P found₁) (h' : Leads cut found₁ (P.reverse ++ before) P' found₂) :
    Leads cut found before (P ++ P') found₂ := fun trivia Q => by
  rw [List.append_assoc, h, h', List.reverse_append, List.append_assoc]

theorem leads_using {cut : Nat → Nat → Bytes} (found : Outline) (before : List Token) {t stop : Token}
    {us : List Token} (ht : t.is "using" = true) (hhead : (us ++ [stop]).head?.any (·.isWord) = true)
    (hus : ∀ x ∈ us, x.is ";" = false) (hstop : stop.is ";" = true) :
    Leads cut found before ((t :: us) ++ [stop])
      { found with usings := found.usings ++ [flat cut us] } := fun trivia Q => by
  rw [group_append, outlineFrom_using_group cut trivia before found ht hhead hus hstop, group_reverse]

theorem leads_space {cut : Nat → Nat → Bytes} {found : Outline} (before : List Token) {t stop : Token}
    {us : List Token} (ht : t.is "namespace" = true) (hspace : found.space = [])
    (hus : ∀ x ∈ us, (x.is Bytes.leftBrace || x.is ";") = false)
    (hstop : (stop.is Bytes.leftBrace || stop.is ";") = true) :
    Leads cut found before ((t :: us) ++ [stop]) { found with space := flat cut us } := fun trivia Q => by
  rw [group_append, outlineFrom_space_group cut trivia before found ht hspace hus hstop, group_reverse]

/-- A token that is passed in front of a word is passed in front of everything. -/
theorem outlineFrom_plain {cut : Nat → Nat → Bytes} (trivia before : List Token) (found : Outline)
    {t : Token} {rest rest' : List Token}
    (husing : ¬(t.is "using" && rest.head?.any (·.isWord)) = true)
    (hspace : ¬(t.is "namespace" && found.space.isEmpty) = true)
    (hclass : ¬(t.is "class" && beginsClass before rest) = true)
    (hle : rest'.head?.any (·.isWord) = true → rest.head?.any (·.isWord) = true) :
    outlineFrom cut trivia found before (t :: rest') = outlineFrom cut trivia found (t :: before) rest' := by
  have husing' : ¬(t.is "using" && rest'.head?.any (·.isWord)) = true := fun h => by
    rw [Bool.and_eq_true] at h husing
    exact husing ⟨h.1, hle h.2⟩
  have hclass' : ¬(t.is "class" && beginsClass before rest') = true := fun h => by
    rw [Bool.and_eq_true, beginsClass_iff] at h hclass
    exact hclass ⟨h.1, hle h.2.1, h.2.2⟩
  rw [outlineFrom, if_neg husing', if_neg hspace, if_neg hclass']

theorem leads_plain {cut : Nat → Nat → Bytes} {found found' : Outline} {before P rest : List Token}
    {t : Token} (husing : ¬(t.is "using" && rest.head?.any (·.isWord)) = true)
    (hspace : ¬(t.is "namespace" && found.space.isEmpty) = true)
    (hclass : ¬(t.is "class" && beginsClass before rest) = true)
    (hle : ∀ Q : List Token, (P ++ Q).head?.any (·.isWord) = true → rest.head?.any (·.isWord) = true)
    (h : Leads cut found (t :: before) P found') : Leads cut found before (t :: P) found' :=
  fun trivia Q => by
    rw [List.cons_append, outlineFrom_plain trivia before found husing hspace hclass (hle Q), h,
      List.reverse_cons, List.append_assoc]
    rfl

/-- Tokens in front in reverse, behind which a class may begin or may not. -/
def SameBar (before before' : List Token) : Prop :=
  before'.head?.any Token.barsClass = before.head?.any Token.barsClass

theorem SameBar.append {before before' : List Token} (h : SameBar before before') (us : List Token) :
    SameBar (us ++ before) (us ++ before') := by
  cases us with
  | nil => exact h
  | cons u us => rfl

theorem beginsClass_congr {before before' : List Token} (h : SameBar before before') (after : List Token) :
    beginsClass before' after = beginsClass before after := by
  have hbars : ∀ ts : List Token, (∀ t, ts.head? = some t → t.barsClass = false) ↔
      ts.head?.any Token.barsClass = false := fun ts => by
    cases ts <;> simp
  rw [Bool.eq_iff_iff, beginsClass_iff, beginsClass_iff, hbars, hbars, h]

/-- The tokens `P` in front of a heading, which lead to it in every text that is the same over them, and
the tokens `Q` behind its keyword. -/
structure Approach (cut : Nat → Nat → Bytes) (space : Bytes) (before ts : List Token) (hs : List Heading)
    (d : Heading) (hs' : List Heading) (P Q : List Token) (space' : Bytes) : Prop where
  eq : ts = P ++ d.keyword :: Q
  front : d.front = (P.reverse ++ before).head?
  directive : d.isUsing = true → Q.head?.any (·.isWord) = true ∧ d.target = Q.takeWhile (!·.is ";") ∧
    hs' = headingsFrom cut space'
      ((Q.take (d.target.length + 1)).reverse ++ d.keyword :: (P.reverse ++ before))
      (Q.drop (d.target.length + 1))
  leads : ∀ n, (∀ t ∈ P, t.stop ≤ n) → ∀ cut', CutsAlike n cut cut' → ∀ before', SameBar before before' →
    ∀ found : Outline, found.space = space → Leads cut' found before' P
      { found with usings := found.usings ++ usingsOf cut hs, space := space' }

/-- A heading is reached over tokens that are passed in front of it. -/
theorem Approach.step {cut : Nat → Nat → Bytes} {space space₁ space' : Bytes} {before us ts P Q : List Token}
    {hs hs' : List Heading} {d : Heading} (hs₁ : List Heading)
    (h : Approach cut space₁ (us.reverse ++ before) ts hs d hs' P Q space')
    (hlead : ∀ n, (∀ t ∈ us, t.stop ≤ n) → ∀ cut', CutsAlike n cut cut' → ∀ before' (found : Outline),
      found.space = space → Leads cut' found before' us
        { found with usings := found.usings ++ usingsOf cut hs₁, space := space₁ }) :
    Approach cut space before (us ++ ts) (hs₁ ++ hs) d hs' (us ++ P) Q space' where
  eq := by rw [h.eq, List.append_assoc]
  front := by
    rw [List.reverse_append, List.append_assoc]
    exact h.front
  directive := by
    rw [List.reverse_append, List.append_assoc]
    exact h.directive
  leads n hn cut' hcut before' hbar found hspace := by
    have hfirst := hlead n (fun t ht => hn t (List.mem_append_left _ ht)) cut' hcut before' found hspace
    have hmore := h.leads n (fun t ht => hn t (List.mem_append_right _ ht)) cut' hcut _ (hbar.append _)
      { found with usings := found.usings ++ usingsOf cut hs₁, space := space₁ } rfl
    have happ := hfirst.append hmore
    simp only [List.append_assoc, ← usingsOf_append] at happ
    exact happ

theorem CutsAlike.flat {cut cut' : Nat → Nat → Bytes} {n : Nat} (hcut : CutsAlike n cut cut')
    {ts : List Token} (h : ∀ t ∈ ts, t.stop ≤ n) : flat cut' ts = flat cut ts :=
  congrArg Bytes.collapse (hcut.raw h)

section

variable {cut : Nat → Nat → Bytes} {space space' : Bytes} {before rest P Q : List Token} {t : Token}
  {hs hs' : List Heading} {d : Heading}

/-- The heading is the first one, and its keyword the next token. -/
theorem Approach.here {target : List Token}
    (hdirective : Heading.isUsing ⟨before.head?, t, target⟩ = true → rest.head?.any (·.isWord) = true ∧
      target = rest.takeWhile (!·.is ";") ∧
      hs' = headingsFrom cut space ((rest.take (target.length + 1)).reverse ++ t :: before)
        (rest.drop (target.length + 1))) :
    Approach cut space before (t :: rest) [] ⟨before.head?, t, target⟩ hs' [] rest space where
  eq := rfl
  front := rfl
  directive := hdirective
  leads n _ cut' _ before' _ found hspace := by
    subst hspace
    rw [show usingsOf cut [] = [] from rfl, List.append_nil]
    exact leads_nil _ _ _

theorem Approach.past_using (husing : (t.is "using" && rest.head?.any (·.isWord)) = true) {target : List Token}
    (htarget : rest.takeWhile (!·.is ";") = target)
    (h : Approach cut space ((rest.take (target.length + 1)).reverse ++ t :: before)
      (rest.drop (target.length + 1)) hs d hs' P Q space') :
    ∃ P', Approach cut space before (t :: rest) (⟨before.head?, t, target⟩ :: hs) d hs' P' Q space' := by
  obtain ⟨stop, hstop, htake⟩ := exists_of_drop_takeWhile (p := fun t => !t.is ";") (l := rest)
    (by rw [htarget, h.eq]; simp)
  rw [Bool.not_eq_false'] at hstop
  rw [Bool.and_eq_true] at husing
  rw [htarget] at htake
  rw [htake, group_reverse] at h
  rw [group_eq t htake]
  refine ⟨_, h.step [_] fun n hn cut' hcut before' found hspace => ?_⟩
  have hword : (target ++ [stop]).head?.any (·.isWord) = true := by
    rw [← htake, List.head?_take, if_neg (Nat.succ_ne_zero _)]
    exact husing.2
  have hflat : flat cut' target = flat cut target :=
    hcut.flat fun x hx => hn x (List.mem_append_left _ (List.mem_cons_of_mem t hx))
  have hmarks : ∀ x ∈ target, x.is ";" = false := by
    rw [← htarget]
    intro x hx
    have hx := List.mem_takeWhile_imp hx
    simpa using hx
  have hlead : Leads cut' found before' ((t :: target) ++ [stop])
      { found with usings := found.usings ++ [flat cut' target] } :=
    leads_using found before' husing.1 hword hmarks hstop
  rw [usingsOf_cons_using cut [] (show Heading.isUsing ⟨_, t, _⟩ = true from husing.1), ← hspace]
  rw [hflat] at hlead
  exact hlead

theorem Approach.past_space (hspace : (t.is "namespace" && space.isEmpty) = true) {name : List Token}
    (hname : rest.takeWhile (fun t => !(t.is Bytes.leftBrace || t.is ";")) = name)
    (h : Approach cut (flat cut name) ((rest.take (name.length + 1)).reverse ++ t :: before)
      (rest.drop (name.length + 1)) hs d hs' P Q space') :
    ∃ P', Approach cut space before (t :: rest) (⟨before.head?, t, name⟩ :: hs) d hs' P' Q space' := by
  obtain ⟨stop, hstop, htake⟩ := exists_of_drop_takeWhile
    (p := fun t => !(t.is Bytes.leftBrace || t.is ";")) (l := rest) (by rw [hname, h.eq]; simp)
  rw [Bool.not_eq_false'] at hstop
  rw [Bool.and_eq_true, List.isEmpty_iff] at hspace
  rw [hname] at htake
  rw [htake, group_reverse] at h
  rw [group_eq t htake]
  refine ⟨_, h.step [_] fun n hn cut' hcut before' found hfound => ?_⟩
  have hflat : flat cut' name = flat cut name :=
    hcut.flat fun x hx => hn x (List.mem_append_left _ (List.mem_cons_of_mem t hx))
  have hmarks : ∀ x ∈ name, (x.is Bytes.leftBrace || x.is ";") = false := by
    rw [← hname]
    intro x hx
    have hx := List.mem_takeWhile_imp hx
    simpa using hx
  have hlead : Leads cut' found before' ((t :: name) ++ [stop]) { found with space := flat cut' name } :=
    leads_space before' hspace.1 (hfound.trans hspace.2) hmarks hstop
  rw [usingsOf_cons_space cut [] (isUsing_space _ _ hspace.1), show usingsOf cut [] = [] from rfl,
    List.append_nil]
  rw [hflat] at hlead
  exact hlead

theorem Approach.past_plain (husing : ¬(t.is "using" && rest.head?.any (·.isWord)) = true)
    (hspace : ¬(t.is "namespace" && space.isEmpty) = true)
    (hclass : ¬(t.is "class" && beginsClass before rest) = true) (hword : d.keyword.isWord = true)
    (h : Approach cut space (t :: before) rest hs d hs' P Q space') :
    Approach cut space before (t :: rest) hs d hs' (t :: P) Q space' := by
  have hreverse : (t :: P).reverse ++ before = P.reverse ++ (t :: before) := by simp
  refine ⟨by rw [h.eq]; rfl, by rw [hreverse]; exact h.front, by rw [hreverse]; exact h.directive,
    fun n hn cut' hcut before' hbar found hfound => ?_⟩
  subst hfound
  refine leads_plain husing hspace ?_ (fun Q' hQ' => ?_) (h.leads n
    (fun x hx => hn x (List.mem_cons_of_mem _ hx)) cut' hcut _ (hbar.append [t]) found rfl)
  · rwa [beginsClass_congr hbar]
  · rw [h.eq]
    cases P with
    | nil => exact hword
    | cons x P => exact hQ'

end

/-- **The walk comes to every heading**, and what it has passed does not depend on what follows. -/
theorem exists_approach {cut : Nat → Nat → Bytes} {space : Bytes} {before ts : List Token}
    {hs hs' : List Heading} {d : Heading} (h : headingsFrom cut space before ts = hs ++ d :: hs')
    (hword : d.keyword.isWord = true) :
    ∃ P Q space', Approach cut space before ts hs d hs' P Q space' := by
  fun_induction headingsFrom cut space before ts generalizing hs with
  | case1 => simp at h
  | case2 space before t rest husing target =>
    rename_i ih
    cases hs with
    | nil =>
      obtain ⟨rfl, rfl⟩ := List.cons.inj h
      exact ⟨[], rest, space, .here fun _ => ⟨((Bool.and_eq_true _ _).mp husing).2, rfl, rfl⟩⟩
    | cons d₁ hs =>
      obtain ⟨rfl, hmore⟩ := List.cons.inj h
      obtain ⟨P, Q, space', happ⟩ := ih hmore
      obtain ⟨P', happ'⟩ := happ.past_using husing rfl
      exact ⟨P', Q, space', happ'⟩
  | case3 space before t rest husing hspace name =>
    rename_i ih
    cases hs with
    | nil =>
      obtain ⟨rfl, rfl⟩ := List.cons.inj h
      refine ⟨[], rest, space, .here fun hu => ?_⟩
      rw [isUsing_space _ _ ((Bool.and_eq_true _ _).mp hspace).1] at hu
      cases hu
    | cons d₁ hs =>
      obtain ⟨rfl, hmore⟩ := List.cons.inj h
      obtain ⟨P, Q, space', happ⟩ := ih hmore
      obtain ⟨P', happ'⟩ := happ.past_space hspace rfl
      exact ⟨P', Q, space', happ'⟩
  | case4 => simp at h
  | case5 space before t rest husing hspace hclass ih =>
    obtain ⟨P, Q, space', happ⟩ := ih h
    exact ⟨t :: P, Q, space', happ.past_plain husing hspace hclass hword⟩

/-! ## Outlines in another place -/

def Class.face (c : Class) : Class := { c.bare with modifiers := c.modifiers }

/-- An outline without what depends on its place. -/
def Outline.face (o : Outline) : Outline := { o with class? := o.class?.map Class.face }

theorem class_face_eq {c c' : Class} (hbare : c'.bare = c.bare) (hmods : c'.modifiers = c.modifiers) :
    c'.face = c.face := by
  unfold Class.face
  rw [hbare, hmods]

/-- Tokens in front that a class is read behind in the same way. -/
structure SameFront (before before' : List Token) : Prop where
  modifiers : (before'.takeWhile isModifier).map (·.text) = (before.takeWhile isModifier).map (·.text)
  bars : SameBar before before'

theorem SameFront.refl (before : List Token) : SameFront before before := ⟨rfl, rfl⟩

theorem SameFront.symm {before before' : List Token} (h : SameFront before before') :
    SameFront before' before := ⟨h.modifiers.symm, Eq.symm h.bars⟩

theorem SameFront.trans {before before' before'' : List Token} (h : SameFront before before')
    (h' : SameFront before' before'') : SameFront before before'' :=
  ⟨h'.modifiers.trans h.modifiers, Eq.trans h'.bars h.bars⟩

def isApart (t : Token) : Bool := !isModifier t && !t.barsClass

theorem sameFront_of_apart {before before' : List Token} (h : before.head?.all isApart = true)
    (h' : before'.head?.all isApart = true) : SameFront before before' := by
  have hplain : ∀ ts : List Token, ts.head?.all isApart = true →
      ts.takeWhile isModifier = [] ∧ ts.head?.any Token.barsClass = false := by
    intro ts hts
    cases ts with
    | nil => exact ⟨rfl, rfl⟩
    | cons t ts =>
      simp only [List.head?_cons, Option.all_some, isApart, Bool.and_eq_true, Bool.not_eq_true'] at hts
      exact ⟨List.takeWhile_cons_of_neg (by simp [hts.1]), hts.2⟩
  constructor
  · rw [(hplain _ h).1, (hplain _ h').1]
  · rw [SameBar, (hplain _ h).2, (hplain _ h').2]

theorem SameFront.cons {before before' : List Token} (h : SameFront before before') (k : Nat) (t : Token) :
    SameFront (t :: before) (t.shift k :: before') where
  modifiers := by
    have hmod : isModifier (t.shift k) = isModifier t := rfl
    rw [List.takeWhile_cons, List.takeWhile_cons, hmod]
    split
    · rw [List.map_cons, List.map_cons, h.modifiers]
      rfl
    · rfl
  bars := rfl

theorem SameFront.append {before before' : List Token} (h : SameFront before before') (k : Nat)
    (ts : List Token) : SameFront (ts ++ before) (ts.map (Token.shift k) ++ before') := by
  induction ts with
  | nil => exact h
  | cons t ts ih => exact ih.cons k t

theorem SameFront.left {before before' : List Token} (h : SameFront before before') (ts : List Token) :
    SameFront (ts ++ before) (ts ++ before') := by
  have hshift := h.append 0 ts
  rwa [show ts.map (Token.shift 0) = ts from List.map_id ts] at hshift

theorem beginsClass_shift {before before' : List Token} (h : SameFront before before') (k : Nat)
    (after : List Token) :
    beginsClass before' (after.map (Token.shift k)) = beginsClass before after := by
  rw [← beginsClass_congr h.bars, Bool.eq_iff_iff, beginsClass_iff, beginsClass_iff, any_isWord_shift]

/-- A class behind the same modifiers, in another place. -/
theorem classOf_face {cut cut' : Nat → Nat → Bytes} {k : Nat}
    (hcut : ∀ x y, cut' (x + k) (y + k) = cut x y) (trivia trivia' : List Token) {before before' : List Token}
    (h : SameFront before before') (keyword : Token) (after : List Token) :
    (classOf cut' trivia' before' (keyword.shift k) (after.map (Token.shift k))).map Class.face
      = (classOf cut trivia before keyword after).map Class.face := by
  have hbare := classOf_shift hcut trivia trivia' before before' keyword (keyword.shift k) after
  cases hc : classOf cut trivia before keyword after with
  | error e =>
    cases hc' : classOf cut' trivia' before' (keyword.shift k) (after.map (Token.shift k)) with
    | error e' =>
      rw [hc, hc'] at hbare
      exact congrArg Except.error (Except.error.inj hbare)
    | ok c' =>
      rw [hc, hc'] at hbare
      cases hbare
  | ok c =>
    cases hc' : classOf cut' trivia' before' (keyword.shift k) (after.map (Token.shift k)) with
    | error e' =>
      rw [hc, hc'] at hbare
      cases hbare
    | ok c' =>
      rw [hc, hc'] at hbare
      refine congrArg Except.ok (class_face_eq (Except.ok.inj hbare) ?_)
      rw [(classOf_header hc).1, (classOf_header hc').1, List.map_reverse, List.map_reverse, h.modifiers]

/-- **The walk in another place**, behind tokens that a class is read behind in the same way. -/
theorem outlineFrom_shift {cut cut' : Nat → Nat → Bytes} {k : Nat}
    (hcut : ∀ x y, cut' (x + k) (y + k) = cut x y) (trivia trivia' : List Token) (found : Outline)
    {before before' : List Token} (h : SameFront before before') (ts : List Token) :
    (outlineFrom cut' trivia' found before' (ts.map (Token.shift k))).map Outline.face
      = (outlineFrom cut trivia found before ts).map Outline.face := by
  fun_induction outlineFrom cut trivia found before ts generalizing before' with
  | case1 => rw [List.map_nil, outlineFrom]
  | case2 found before t rest husing target =>
    rename_i ih
    have htarget : (rest.map (Token.shift k)).takeWhile (fun x => !x.is ";") = target.map (Token.shift k) := by
      rw [List.takeWhile_map, not_is_shift]
    rw [List.map_cons, outlineFrom, Token.shift_is, any_isWord_shift, if_pos husing]
    simp only [htarget, List.length_map, ← List.map_take, ← List.map_drop, ← List.map_reverse,
      flat_shift hcut]
    exact ih ((h.cons k t).append k _)
  | case3 found before t rest husing hspace name =>
    rename_i ih
    have hname : (rest.map (Token.shift k)).takeWhile (fun x => !(x.is Bytes.leftBrace || x.is ";"))
        = name.map (Token.shift k) := List.takeWhile_map
    rw [List.map_cons, outlineFrom, Token.shift_is, any_isWord_shift, if_neg husing, Token.shift_is,
      if_pos hspace]
    simp only [hname, List.length_map, ← List.map_take, ← List.map_drop, ← List.map_reverse,
      flat_shift hcut]
    exact ih ((h.cons k t).append k _)
  | case4 found before t rest husing hspace hbegins =>
    rw [List.map_cons, outlineFrom, Token.shift_is, any_isWord_shift, if_neg husing, Token.shift_is,
      if_neg hspace, Token.shift_is, beginsClass_shift h, if_pos hbegins]
    have hface := classOf_face hcut trivia trivia' h t rest
    revert hface
    cases classOf cut trivia before t rest with
    | error e =>
      cases classOf cut' trivia' before' (t.shift k) (rest.map (Token.shift k)) with
      | error e' => exact fun hface => congrArg Except.error (Except.error.inj hface)
      | ok c' => intro hface; cases hface
    | ok c =>
      cases classOf cut' trivia' before' (t.shift k) (rest.map (Token.shift k)) with
      | error e' => intro hface; cases hface
      | ok c' =>
        intro hface
        refine congrArg Except.ok ?_
        simp only [Outline.face, Option.map_some, Except.ok.inj hface]
  | case5 found before t rest husing hspace hbegins =>
    rename_i ih
    rw [List.map_cons, outlineFrom, Token.shift_is, any_isWord_shift, if_neg husing, Token.shift_is,
      if_neg hspace, Token.shift_is, beginsClass_shift h, if_neg hbegins]
    exact ih (h.cons k t)

/-- The walk adds to the using directives that it has found. -/
theorem outlineFrom_prepend (cut : Nat → Nat → Bytes) (trivia : List Token) (found : Outline)
    (us : List Bytes) (before ts : List Token) :
    outlineFrom cut trivia { found with usings := us ++ found.usings } before ts
      = (outlineFrom cut trivia found before ts).map fun o => { o with usings := us ++ o.usings } := by
  fun_induction outlineFrom cut trivia found before ts with
  | case1 => rw [outlineFrom]; rfl
  | case2 found before t rest husing target ih =>
    rw [outlineFrom, if_pos husing]
    simp only [List.append_assoc]
    exact ih
  | case3 found before t rest husing hspace name ih =>
    rw [outlineFrom, if_neg husing, if_pos hspace]
    exact ih
  | case4 found before t rest husing hspace hbegins =>
    rw [outlineFrom, if_neg husing, if_neg hspace, if_pos hbegins]
    cases classOf cut trivia before t rest <;> rfl
  | case5 found before t rest husing hspace hbegins ih =>
    rw [outlineFrom, if_neg husing, if_neg hspace, if_neg hbegins]
    exact ih

end Flowsmith.Source
