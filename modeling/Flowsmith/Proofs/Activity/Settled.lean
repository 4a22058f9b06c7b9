import Flowsmith.Proofs.Activity.Again
import Flowsmith.Proofs.Source.Header
import Flowsmith.Proofs.Source.Safety

/-!
# The settled class

The last pass edits the header of the first class and nothing else. Where only blanks stand between the
modifiers and the keyword, the class is read again behind the settled modifiers with the same content, and
the pass has nothing to do in the new source.

* `settledModifiers_eq` : the modifiers without `partial`, with `abstract` when no method executes;
* `settledHeader_spaced` : the new header is a row of these modifiers again;
* `settleClass_settles` : what the pass does.
-/

namespace Flowsmith.Activity

open Source (SpacedWord spacedChunks render classWord modifierWords WordOf)

/-- **The settled modifiers** are the old ones without `partial`, with `abstract` when no method executes. -/
theorem settledModifiers_eq (context : Bytes) (c : Source.Class) : settledModifiers context c
    = c.modifiers.filter (· != ("partial" : Bytes)) ++
      if c.members.any (isExecute context) then [] else [("abstract" : Bytes)] := by
  unfold settledModifiers executingModifiers
  split
  · rw [List.append_nil]
  · rw [List.filter_append]
    rfl

theorem exists_single {ws : List Bytes} (h : ∀ w ∈ ws, w ∈ modifierWords) :
    ∃ ps : List SpacedWord, ws.flatMap (· ++ [0x20]) = render (spacedChunks ps) ∧ ps.map (·.word.1) = ws := by
  obtain ⟨vs, rfl⟩ : ∃ vs : List (WordOf modifierWords), vs.map (·.1) = ws :=
    ⟨ws.attachWith _ h, List.attachWith_map_subtype_val h⟩
  refine ⟨vs.map .single, ?_, ?_⟩
  · rw [Source.spacedChunks_single, Source.render_wordChunks]
  · rw [List.map_map]
    rfl

/-- **The new header** is a row of the settled modifiers. -/
theorem settledHeader_spaced (context : Bytes) {c : Source.Class} {ps : List SpacedWord}
    (h : c.modifiers = ps.map (·.word.1)) : ∃ ps' : List SpacedWord,
      settledHeader c context (render (spacedChunks ps)) = render (spacedChunks ps') ∧
      ps'.map (·.word.1) = settledModifiers context c := by
  have hwords : ∀ w ∈ c.modifiers, w ∈ modifierWords := fun w hw => by
    rw [h] at hw
    obtain ⟨p, -, rfl⟩ := List.mem_map.1 hw
    exact p.word.2
  -- the header of a class that executes or is abstract
  obtain ⟨ps₁, hheader, hps₁⟩ : ∃ ps₁ : List SpacedWord, (if c.members.any (isExecute context)
      then render (spacedChunks ps) else render (spacedChunks ps) ++ ("abstract " : Bytes))
        = render (spacedChunks ps₁) ∧ ps₁.map (·.word.1) = executingModifiers context c := by
    unfold executingModifiers
    split
    · exact ⟨ps, rfl, h.symm⟩
    · refine ⟨ps ++ [.single ⟨"abstract", by decide⟩], ?_, by rw [List.map_append, ← h]; rfl⟩
      rw [spacedChunks, spacedChunks, List.flatMap_append, Source.render_append]
      rfl
  unfold settledHeader
  simp only [hheader]
  split
  · rw [removeWord_eq "partial" ((Source.words_spaced ps₁).trans hps₁)]
    exact exists_single fun w hw => executingModifiers_words hwords w (List.mem_filter.1 hw).1
  · rename_i hpartial
    exact ⟨ps₁, rfl, hps₁.trans (settledModifiers_of_not_partial context (by simpa using hpartial)).symm⟩

theorem settledHeader_again {context : Bytes} {c c' : Source.Class}
    (hmodifiers : c'.modifiers = settledModifiers context c)
    (hexec : c'.members.any (isExecute context) = c.members.any (isExecute context))
    (habstract : c'.hasModifier "abstract" = false) (header : Bytes) :
    settledHeader c' context header = header := by
  have hpartial : c'.hasModifier "partial" = false := by
    rw [Source.Class.hasModifier, hmodifiers, ← Bool.not_eq_true, List.contains_iff_mem, settledModifiers,
      List.mem_filter]
    simp
  unfold settledHeader
  rw [hexec, if_pos (executes_of_settled hmodifiers habstract), if_neg (by rw [hpartial]; decide)]

/-- **The last pass settles the class** and edits its header alone. Without modifiers the keyword must not
stand behind a mark that bars a class. -/
theorem settleClass_settles {text : Bytes} (hnest : Source.Nested (Source.tokens text)) (context : Bytes) :
    ∃ o, Source.outline text = .ok o ∧ ∀ c ∈ o.class?, c.Plain text →
      (settledModifiers context c = [] → ∀ t ∈ tokenBefore? text c.start, t.barsClass = false) →
      ∃ text2 o2 c2, settleClass context text = .ok text2 ∧
        (∃ header, text2 = text.take c.start ++ (header ++ text.drop c.keywordStart)) ∧
        Source.outline text2 = .ok o2 ∧ o2.class? = some c2 ∧ c2.content = c.content ∧
        (c.hasModifier "abstract" = true → text2 = text) ∧
        (c.hasModifier "abstract" = false → c2.modifiers = c.modifiers.filter (· != ("partial" : Bytes)) ++
          if c.members.any (isExecute context) then [] else [("abstract" : Bytes)]) ∧
        settleClass context text2 = .ok text2 := by
  obtain ⟨o, ho, -⟩ := Source.outline_safe hnest
  refine ⟨o, ho, fun c hc hplain hfree => ?_⟩
  obtain ⟨pre, head, r, P, hat⟩ := Source.exists_classAt ho hc
  obtain ⟨ps, rfl, hps⟩ := hat.exists_spaced hplain
  have hfront : tokenBefore? text c.start = P.getLast? := by rw [tokenBefore?, hat.front]
  rw [hfront] at hfree
  have htext := hat.text_eq
  subst htext
  have htake : (pre ++ (render (spacedChunks ps) ++ (classWord ++ r))).take c.start = pre := by
    rw [hat.start, List.take_left]
  have hdrop : (pre ++ (render (spacedChunks ps) ++ (classWord ++ r))).drop c.keywordStart = classWord ++ r := by
    rw [hat.keywordStart, ← List.drop_drop, List.drop_left, List.drop_left]
  have hsettle := settleClass_split context ho hc hat.start hat.keywordStart
  rw [htake, hdrop]
  cases habstract : c.hasModifier "abstract" with
  | true =>
    rw [habstract, if_pos rfl] at hsettle
    exact ⟨_, o, c, hsettle, ⟨_, rfl⟩, ho, hc, rfl, fun _ => rfl, fun h => Bool.noConfusion h, hsettle⟩
  | false =>
    obtain ⟨ps', hheader, hps'⟩ := settledHeader_spaced context hps
    rw [habstract, if_neg Bool.false_ne_true, hheader] at hsettle
    -- the class is found again behind its settled modifiers
    obtain ⟨o', c', ho', hc', hmodifiers, hstart, hkeyword, hbare⟩ := hat.rehead ps' fun hnil =>
      hfree (by rw [← hps', hnil]; rfl)
    have hcontent : c'.content = c.content := by
      have ho₁ := ho
      have ho₂ := ho'
      rw [← List.append_assoc] at ho₁ ho₂
      exact Source.content_eq ho₁ hc (by rw [hat.keywordStart, List.length_append]) ho₂ hc'
        (by rw [hkeyword, List.length_append])
    refine ⟨_, o', c', hsettle, ⟨_, rfl⟩, ho', hc', hcontent, fun h => Bool.noConfusion h, fun _ => ?_, ?_⟩
    · rw [hmodifiers, hps', settledModifiers_eq]
    · rw [settleClass_split context ho' hc' hstart hkeyword]
      cases habstract' : c'.hasModifier "abstract" with
      | true => rfl
      | false =>
        rw [settledHeader_again (hmodifiers.trans hps') (any_isExecute_of_bare context hbare) habstract']
        rfl

def parted : Bytes := "using B;\npublic\n  partial class A : D\x7bint F(C c)\x7b\x7d\x7d"

def partedMethod : Source.Member where
  shape := .method [{ type := "C", name := "c" }] (.block [])
  name := "F"
  type := "int"
  text := "int F(C c)\x7b\x7d"
  column := 22

def partedClass : Source.Class where
  name := "A"
  modifiers := ["public", "partial"]
  bases := "D"
  start := 9
  keywordStart := 26
  members := [partedMethod]

theorem settleClass_settles_parted : Source.Nested (Source.tokens parted) ∧ partedClass.Plain parted ∧
    settledModifiers "C" partedClass = ["public", "abstract"] ∧
    ∃ text2 o2 c2, settleClass "C" parted = .ok text2 ∧ Source.outline text2 = .ok o2 ∧ o2.class? = some c2 ∧
      c2.content = partedClass.content ∧ c2.modifiers = ["public", "abstract"] ∧
      settleClass "C" text2 = .ok text2 := by
  have hcode : parted = _ := Bytes.ofString_ofList _
  have hnest : Source.Nested (Source.tokens parted) := by
    rw [hcode]
    decide +kernel
  have hplain : partedClass.Plain parted := by
    rw [hcode]
    decide +kernel
  have hsettled : settledModifiers "C" partedClass = ["public", "abstract"] := by decide
  have hread : Source.outline parted = .ok ⟨["B"], [], some partedClass⟩ := by
    rw [hcode]
    decide +kernel
  obtain ⟨o, ho, hclass⟩ := settleClass_settles hnest "C"
  rw [hread, Except.ok.injEq] at ho
  subst ho
  obtain ⟨text2, o2, c2, hrun, -, ho2, hc2, hcontent, -, hmodifiers, hagain⟩ := hclass partedClass rfl hplain
    (fun hnil => absurd (hsettled.symm.trans hnil) (by decide))
  refine ⟨hnest, hplain, hsettled, text2, o2, c2, hrun, ho2, hc2, hcontent, ?_, hagain⟩
  rw [hmodifiers (by decide), ← settledModifiers_eq, hsettled]

/-- A class behind the mark of a list of bases, declared by its modifier alone. -/
def barred : Bytes := ": partial class A\x7bvoid Execute(C c)\x7b\x7d\x7d"

/-- A class may be gone when its only modifier goes. -/
theorem settleClass_barred : Source.Nested (Source.tokens barred) ∧
    (∃ c ∈ declared? barred, c.Plain barred) ∧
    ∃ text2, settleClass "C" barred = .ok text2 ∧ declared? text2 = none ∧
      settleClass "C" text2 ≠ .ok text2 := by
  refine ⟨?_, ?_, ": class A\x7bvoid Execute(C c)\x7b\x7d\x7d", ?_⟩ <;> rw [barred]
  all_goals
    repeat rw [Bytes.ofString_ofList]
    decide +kernel

end Flowsmith.Activity
