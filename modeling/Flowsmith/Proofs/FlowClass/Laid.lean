import Flowsmith.Proofs.FlowClass.Agreement

/-!
# Lines that are laid out anew

* `Laid` : a line that begins in a mode, and the line it becomes;
* `LaidLines` : lines one after the other, each in the mode that the last one leaves;
* `tracked_line` : a line with what follows it;
* `agrees_of_laid` : the tokens of a text and of its lines under another indentation.
-/

namespace Flowsmith.FlowClass

open Source

/-! ## One line -/

/-- A line that begins in a mode, and the line it becomes. -/
inductive Laid (trims : Bool) : Mode → Bytes → Bytes → Prop where
  | kept (l : Bytes) : Laid trims .verbatim l l
  /-- With `trims` blanks at the end may be lost. -/
  | indented {m : Mode} {g x z g' : Bytes} (hm : m ≠ .verbatim) (hg : IsGapText g) (hg' : IsGapText g')
      (hz : ∀ c ∈ z, isIndent c = true) (htrims : trims = false → z = []) :
      Laid trims m (g ++ x ++ z) (g' ++ x)
  | blank {m : Mode} {l : Bytes} (hm : m ≠ .verbatim) (htrims : trims = true) (hl : Blank l) :
      Laid trims m l []

/-- What follows the text of a line: the end of the line, a carriage return in front of it, or nothing. -/
structure Follows (trims : Bool) (x z e r : Bytes) : Prop where
  return_ : e = [] ∨ trims = true ∧ e = [0x0D] ∧ r.head? = some Bytes.newline
  atEnd : AtEnd r
  last : trims = true → e = [] → z = [] → r ≠ [] → x.getLast? ≠ some 0x0D

theorem Follows.apart {trims : Bool} {x z e r : Bytes} (h : Follows trims x z e r)
    (hz : ∀ c ∈ z, isIndent c = true) : Apart (z ++ e ++ r) := by
  intro y hy
  cases z with
  | cons c z =>
    obtain rfl : c = y := Option.some.inj hy
    exact isBlankByte_of_isGap (isGap_of_isIndent (hz c List.mem_cons_self))
  | nil =>
    rcases h.return_ with rfl | ⟨-, rfl, -⟩
    · exact Tracked.apart_of_atEnd h.atEnd y hy
    · obtain rfl : 0x0D = y := Option.some.inj hy
      decide

/-- A carriage return of a line is followed by no line feed. -/
theorem Follows.no_feed {trims : Bool} {c : UInt8} {x z e r : Bytes} (h : Follows trims (c :: x) z e r)
    (hz : ∀ c ∈ z, isIndent c = true) (hc : c = 0x0D) (htrims : trims = true) (hx : Bytes.newline ∉ x) :
    (x ++ (z ++ e ++ r)).head? ≠ some Bytes.newline := by
  subst hc
  cases x with
  | cons d x => exact fun hd => hx (by simp [Option.some.inj hd])
  | nil =>
    cases z with
    | cons d z => exact fun hd => ne_newline_of_isIndent (hz d List.mem_cons_self) (Option.some.inj hd)
    | nil =>
      rcases h.return_ with rfl | ⟨-, rfl, -⟩
      · intro hr
        refine h.last htrims rfl rfl ?_ rfl
        rintro rfl
        cases hr
      · exact fun hr => absurd (Option.some.inj hr) (by decide)

/-- Blanks at the end of a line may go, and the line ends as it is read on. -/
theorem tracked_end {trims may : Bool} {m : Mode} {z e r t : Bytes} {fs : List Bool}
    (hz : ∀ c ∈ z, isIndent c = true) (htrims : trims = false → z = []) (hmay : z ≠ [] → may = true)
    (hfollows : Follows trims [] z e r) (h : Tracked trims m may r fs t) :
    Tracked trims m may (z ++ e ++ r) fs t := by
  have hend : Tracked trims m may (e ++ r) fs t ∧ AtBreak (e ++ r) := by
    rcases hfollows.return_ with rfl | ⟨rfl, rfl, hr⟩
    · exact ⟨h, .inl hfollows.atEnd⟩
    · obtain ⟨r, rfl⟩ := List.head?_eq_some_iff.1 hr
      exact ⟨.ending rfl h, .inr ⟨r, rfl⟩⟩
  cases z with
  | nil => exact hend.1
  | cons c z =>
    obtain rfl := hmay (by simp)
    have ht : trims = true := by
      cases trims with
      | true => rfl
      | false => exact absurd (htrims rfl) (by simp)
    rw [List.append_assoc]
    exact .trail ht hz hend.2 (h.atEnd hfollows.atEnd) hend.1

/-- A comment that ends with its line. -/
theorem tracked_note {trims may : Bool} {x b z e r t : Bytes} {fs : List Bool}
    (hb : Bytes.newline ∉ b) (hz : ∀ c ∈ z, isIndent c = true) (htrims : trims = false → z = [])
    (hfollows : Follows trims x z e r) (h : Tracked trims .code may r fs t) :
    Tracked trims .code may ('/'.toUInt8 :: '/'.toUInt8 :: (b ++ (z ++ e ++ r))) fs
      ('/'.toUInt8 :: '/'.toUInt8 :: (b ++ t)) := by
  have hze : IsGapText (z ++ e) ∧ Bytes.newline ∉ z ++ e ∧ (trims = false → z ++ e = []) := by
    have hzn : Bytes.newline ∉ z := fun hn => ne_newline_of_isIndent (hz _ hn) rfl
    rcases hfollows.return_ with rfl | ⟨rfl, rfl, -⟩
    · exact ⟨by simpa using isGapText_of_isIndent hz, by simpa using hzn, by simpa using htrims⟩
    · refine ⟨isGapText_append (isGapText_of_isIndent hz) (by simp [IsGapText, isGap]), ?_, by simp⟩
      rw [List.mem_append, not_or]
      exact ⟨hzn, by decide⟩
  have hbze : Bytes.newline ∉ b ++ (z ++ e) := by
    rw [List.mem_append, not_or]
    exact ⟨hb, hze.2.1⟩
  have hall := Tracked.note hbze hze.1 hze.2.2 hfollows.atEnd h
  simpa using hall

theorem tracked_line {trims may : Bool} {m : Mode} {x z e r t : Bytes} {fs : List Bool}
    (hx : Bytes.newline ∉ x) (hz : ∀ c ∈ z, isIndent c = true) (htrims : trims = false → z = [])
    (hmay : z ≠ [] → may = true) (hfollows : Follows trims x z e r)
    (h : Tracked trims (modeAfter m x) may r fs t) :
    Tracked trims m may (x ++ (z ++ e ++ r)) fs (x ++ t) := by
  match x with
  | [] =>
    rw [modeAfter_nil] at h
    exact tracked_end hz htrims hmay hfollows h
  | c :: x =>
    have hapart := hfollows.apart hz
    have hx' : Bytes.newline ∉ x := fun hn => hx (List.mem_cons_of_mem _ hn)
    by_cases hnote : OpensNote m c x
    · -- the rest of the line is a comment
      obtain ⟨rfl, rfl, hslash⟩ := hnote
      obtain ⟨b, rfl⟩ := List.head?_eq_some_iff.1 hslash
      rw [modeAfter_note] at h
      exact tracked_note (fun hn => hx' (List.mem_cons_of_mem _ hn)) hz htrims hfollows h
    · have hnote' : ¬ OpensNote m c (x ++ (z ++ e ++ r)) := fun hh =>
        hnote ⟨hh.1, hh.2.1, (head?_append_apart hapart (by decide)).1 hh.2.2⟩
      have hsize := stride_size_le m c x
      rw [modeAfter_cons hnote] at h
      generalize hstride : stride m c x = next at h hsize
      obtain ⟨m', k⟩ := next
      obtain ⟨b, x, rfl, rfl⟩ : ∃ b x₁, x = b ++ x₁ ∧ k = b.length := by
        refine ⟨x.take k, x.drop k, (List.take_append_drop k x).symm, ?_⟩
        rw [List.length_take, Nat.min_eq_left hsize]
      rw [List.drop_left] at h
      have hfollows' : Follows trims x z e r := by
        refine ⟨hfollows.return_, hfollows.atEnd, fun ht he hz hr hlast => ?_⟩
        refine hfollows.last ht he hz hr ?_
        rw [← List.cons_append, List.getLast?_append, hlast]
        rfl
      have ih := tracked_line (fun hn => hx' (List.mem_append_right _ hn)) hz htrims hmay hfollows' h
      have hline : Bytes.newline ∉ c :: b := fun hn => hx (by
        rcases List.mem_cons.1 hn with rfl | hn
        · exact List.mem_cons_self
        · exact List.mem_cons_of_mem _ (List.mem_append_left _ hn))
      have hreturn : trims = true → c = 0x0D → (b ++ (x ++ (z ++ e ++ r))).head? ≠ some Bytes.newline := by
        intro ht hc
        rw [← List.append_assoc]
        exact hfollows.no_feed hz hc ht hx'
      have hall := Tracked.stride (c := c) (b := b) (by rwa [List.append_assoc] at hnote') hline
        hreturn (by rw [← List.append_assoc, stride_append m c _ hapart, hstride]) ih
      simpa using hall
termination_by x.length
decreasing_by
  all_goals
    subst_vars
    simp only [List.length_append, List.length_cons]
    omega

theorem getLast?_append_ne {g x : Bytes} {c : UInt8} (h : (g ++ x).getLast? ≠ some c) :
    x.getLast? ≠ some c := by
  intro hx
  refine h ?_
  rw [List.getLast?_append, hx]
  rfl

theorem laid_line {trims : Bool} {m : Mode} {l o e r t : Bytes} {fs : List Bool} (h : Laid trims m l o)
    (hl : Bytes.newline ∉ l) (hfollows : Follows trims l [] e r)
    (hr : ∀ may, Tracked trims (modeAfter m l) may r fs t) :
    ∃ g g' s' t', l ++ e ++ r = g ++ s' ∧ o ++ t = g' ++ t' ∧ (m = .verbatim → g = [] ∧ g' = []) ∧
      Margin trims g s' ∧ IsGapText g' ∧ Tracked trims m (trims && m != .verbatim) s' fs t' := by
  have hgap : IsGapText [] := by simp [IsGapText]
  cases h with
  | kept =>
    refine ⟨[], [], l ++ ([] ++ e ++ r), l ++ t, by simp, rfl, fun _ => ⟨rfl, rfl⟩, .inl hgap, hgap, ?_⟩
    exact tracked_line hl (by simp) (fun _ => rfl) (by simp) hfollows (hr _)
  | @indented _ g x z g' hm hg hg' hz htrims =>
    have hx : Bytes.newline ∉ x := fun hn => hl (by simp [hn])
    have hfollows' : Follows trims x z e r := by
      refine ⟨hfollows.return_, hfollows.atEnd, fun ht he hze hre => ?_⟩
      have hlast := hfollows.last ht he rfl hre
      rw [hze, List.append_nil] at hlast
      exact getLast?_append_ne hlast
    have hmode : modeAfter m (g ++ x ++ z) = modeAfter m x := by
      rw [modeAfter_append_gaps (isGapText_of_isIndent hz), modeAfter_blanks hg.parts]
    rw [hmode] at hr
    refine ⟨g, g', x ++ (z ++ e ++ r), x ++ t, by simp, by simp, fun h => absurd h hm, .inl hg, hg', ?_⟩
    refine tracked_line hx hz htrims (fun hne => ?_) hfollows' (hr _)
    cases trims with
    | true => simp [hm]
    | false => exact absurd (htrims rfl) hne
  | blank hm htrims hblank =>
    subst htrims
    have hmode : modeAfter m l = m := by
      have h := modeAfter_blanks hblank.parts m []
      rwa [List.append_nil, modeAfter_nil] at h
    rw [hmode] at hr
    have hend : Tracked true m (true && m != .verbatim) (e ++ r) fs t ∧ AtBreak (e ++ r) := by
      rcases hfollows.return_ with rfl | ⟨-, rfl, hfeed⟩
      · exact ⟨hr _, .inl hfollows.atEnd⟩
      · obtain ⟨r, rfl⟩ := List.head?_eq_some_iff.1 hfeed
        exact ⟨.ending rfl (hr _), .inr ⟨r, rfl⟩⟩
    exact ⟨l, [], e ++ r, t, by simp, rfl, fun h => absurd h hm, .inr ⟨rfl, hblank, hl, hend.2⟩, hgap,
      hend.1⟩

/-! ## Lines one after the other -/

/-- Lines that are laid out anew one after the other, each in the mode that the one before it leaves. -/
inductive LaidLines (trims : Bool) : Mode → List Bytes → List Bytes → Prop where
  | nil {m : Mode} : LaidLines trims m [] []
  | cons {m : Mode} {l o : Bytes} {ls os : List Bytes} (h : Laid trims m l o)
      (hs : LaidLines trims (nextMode m l) ls os) : LaidLines trims m (l :: ls) (o :: os)

theorem verbatim_atLineEnd (m : Mode) : (m.atLineEnd == .verbatim) = (m == .verbatim) := by
  cases m <;> rfl

theorem verbatimLinesFrom_eq {m : Mode} {ls : List Bytes} (h : ls ≠ []) :
    verbatimLinesFrom m ls = (m == .verbatim) :: (verbatimLinesFrom m ls).tail := by
  cases ls with
  | nil => exact absurd rfl h
  | cons l ls => rfl

theorem follows_of_lineEnd {trims : Bool} {l e : Bytes} (s : Bytes) (he : LineEnd l e)
    (hreturn : trims = false → (0x0D : UInt8) ∉ e) : Follows trims l [] e (Bytes.newline :: s) := by
  refine ⟨?_, .inr rfl, fun _ hnil _ _ => ?_⟩
  · rcases he with ⟨rfl, -⟩ | rfl
    · exact .inl rfl
    · cases trims with
      | true => exact .inr ⟨rfl, rfl, rfl⟩
      | false => exact absurd List.mem_cons_self (hreturn rfl)
  · rcases he with ⟨-, hlast⟩ | rfl
    · exact hlast
    · cases hnil

/-- A text and its lines that are laid out anew; blank lines at the end may be left out. -/
theorem tracked_of_laid {trims : Bool} {m : Mode} {s : Bytes} {ls after outs : List Bytes}
    (hlaid : LaidLines trims m ls outs) (hne : ls ≠ []) (hs : Split s (ls ++ after))
    (hreturn : trims = false → (0x0D : UInt8) ∉ s)
    (hafter : after = [] ∨ trims = true ∧ ∀ l ∈ after, Bytes.isBlank l = true) :
    ∃ g g' s' t' fs, s = g ++ s' ∧ Bytes.joinWith [Bytes.newline] outs = g' ++ t' ∧
      (m = .verbatim → g = [] ∧ g' = []) ∧ Margin trims g s' ∧ IsGapText g' ∧
      Tracked trims m (trims && m != .verbatim) s' ((verbatimLinesFrom m ls).tail ++ fs) t' ∧
      (after = [] → fs = []) := by
  induction hlaid generalizing s with
  | nil => exact absurd rfl hne
  | @cons m l o ls outs h hlaid ih =>
    generalize hall : l :: ls ++ after = ls₀ at hs
    cases hs with
    | last hl =>
      obtain ⟨rfl, hnil⟩ := List.cons.inj hall
      obtain ⟨rfl, rfl⟩ := List.append_eq_nil_iff.1 hnil
      cases hlaid
      obtain ⟨g, g', s', t', hs', ht', hrest⟩ := laid_line (e := []) (r := []) (t := []) h hl
        ⟨.inl rfl, .inl rfl, fun _ _ _ hr => absurd rfl hr⟩ fun may => .nil
      rw [List.append_nil, List.append_nil] at hs'
      rw [List.append_nil] at ht'
      exact ⟨g, g', s', t', [], hs', ht', hrest.1, hrest.2.1, hrest.2.2.1, hrest.2.2.2, fun _ => rfl⟩
    | @line l₀ e s ls₁ hl he hs =>
      obtain ⟨rfl, rfl⟩ := List.cons.inj hall
      have hfollows := follows_of_lineEnd s he fun ht hmem => hreturn ht (by simp [hmem])
      by_cases hnil : ls = []
      · -- the lines that follow are blank
        subst hnil
        cases hlaid
        have hafter' : trims = true ∧ ∀ l ∈ after, Bytes.isBlank l = true := hafter.resolve_left (by
          rintro rfl
          cases hs)
        have hblank : Blank (Bytes.newline :: s) :=
          Blank.append (u := [Bytes.newline]) (blank_of_bytes (List.forall_mem_singleton.2 rfl))
          (hs.blank hafter'.2)
        obtain ⟨g, g', s', t', hs', ht', hrest⟩ := laid_line h hl hfollows fun may =>
          .last hafter'.1 hblank (.inl (.inr rfl))
        rw [List.append_nil] at ht'
        exact ⟨g, g', s', t', _, hs', ht', hrest.1, hrest.2.1, hrest.2.2.1, hrest.2.2.2, by
          rintro rfl
          cases hs⟩
      · obtain ⟨g₁, g₁', s₁, t₁, fs, rfl, hjoin, hverb, hmargin, hg₁, htracked, hfs⟩ :=
          ih hnil hs (fun ht hmem => hreturn ht (by simp [hmem]))
        have houts : outs ≠ [] := by
          rintro rfl
          cases hlaid
          exact hnil rfl
        rw [nextMode_eq] at htracked hverb
        have hline : ∀ may, Tracked trims (modeAfter m l) may (Bytes.newline :: (g₁ ++ s₁))
            ((modeAfter m l == .verbatim) ::
              ((verbatimLinesFrom (modeAfter m l).atLineEnd ls).tail ++ fs))
            (Bytes.newline :: (g₁' ++ t₁)) := fun may => by
          refine .line (fun hv => hverb (by rw [hv]; rfl)) hmargin hg₁ ?_
          have hbne : ((modeAfter m l).atLineEnd != .verbatim) = (modeAfter m l != .verbatim) := by
            rw [bne, bne, verbatim_atLineEnd]
          rwa [hbne] at htracked
        obtain ⟨g, g', s', t', hs', ht', hrest⟩ := laid_line h hl hfollows hline
        refine ⟨g, g', s', t', fs, hs', ?_, hrest.1, hrest.2.1, hrest.2.2.1, ?_, hfs⟩
        · rw [joinWith_cons houts, hjoin, ← ht']
          simp
        · have hflags : (verbatimLinesFrom m (l :: ls)).tail
              = (modeAfter m l == .verbatim) :: (verbatimLinesFrom (modeAfter m l).atLineEnd ls).tail := by
            rw [verbatimLinesFrom, List.tail_cons, nextMode_eq, verbatimLinesFrom_eq hnil, verbatim_atLineEnd]
            rfl
          rw [hflags]
          exact hrest.2.2.2

/-- **The tokens of lines that are laid out anew.** They are those of the text, when the layout leaves all
of them alone; and the lines that the layout takes to begin inside verbatim literals do so. -/
theorem agrees_of_laid {trims : Bool} {s : Bytes} {ls after outs : List Bytes}
    (hlaid : LaidLines trims .code ls outs) (hne : ls ≠ []) (hs : Split s (ls ++ after))
    (hreturn : trims = false → (0x0D : UInt8) ∉ s)
    (hafter : after = [] ∨ trims = true ∧ ∀ l ∈ after, Bytes.isBlank l = true) {pos : Nat}
    (hheld : ∀ x ∈ tokensFrom pos true s, Held trims x) :
    ∃ fs, (after = [] → fs = []) ∧
      Agrees trims pos (tokensFrom pos true s) s ((verbatimLinesFrom .code ls).tail ++ fs)
        (tokens (Bytes.joinWith [Bytes.newline] outs)) := by
  obtain ⟨g, g', s', t', fs, rfl, hjoin, -, hmargin, hg', h, hfs⟩ :=
    tracked_of_laid hlaid hne hs hreturn hafter
  obtain ⟨junk, f, hjunk, hblank, hf⟩ := margin_tokens hmargin pos
  rw [hjunk] at hheld ⊢
  rw [tokens, hjoin, tokensFrom_gaps hg']
  have ih := Tracked.agrees (0 + g'.length) h hf fun x hx => hheld x (List.mem_append_right _ hx)
  exact ⟨fs, hfs, ih.lead (Tracked.margin_parts hmargin).2 hblank⟩

/-- Lines with flags that say which begin inside verbatim literals. -/
theorem laidLines_zip {trims : Bool} {f : Bytes × Bool → Bytes} {ls : List Bytes} {m : Mode}
    (hcode : ∀ l ∈ ls, ∀ m, m ≠ .verbatim → Laid trims m l (f (l, false)))
    (hverbatim : ∀ l, f (l, true) = l) :
    LaidLines trims m ls ((ls.zip (verbatimLinesFrom m ls)).map f) := by
  induction ls generalizing m with
  | nil => exact .nil
  | cons l ls ih =>
    rw [verbatimLinesFrom, List.zip_cons_cons, List.map_cons]
    refine .cons ?_ (ih fun l hl => hcode l (List.mem_cons_of_mem _ hl))
    cases hm : m == .verbatim with
    | true =>
      obtain rfl : m = .verbatim := by simpa using hm
      rw [hverbatim]
      exact .kept l
    | false => exact hcode l List.mem_cons_self m (by simpa using hm)

theorem laidLines_refl (trims : Bool) {m : Mode} (ls : List Bytes) : LaidLines trims m ls ls := by
  induction ls generalizing m with
  | nil => exact .nil
  | cons l ls ih =>
    refine .cons ?_ ih
    by_cases hm : m = .verbatim
    · subst hm
      exact .kept l
    · have h : Laid trims m ([] ++ l ++ []) ([] ++ l) :=
        .indented hm (by simp [IsGapText]) (by simp [IsGapText]) (by simp) fun _ => rfl
      simpa using h

end Flowsmith.FlowClass
