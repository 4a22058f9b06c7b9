import Flowsmith.Proofs.Flow.Depth
import Flowsmith.Files.Memory
import Flowsmith.Proofs.Steps
import Flowsmith.Settings.Load

/-!
# What can go wrong with an expression

Settings that were loaded have a depth and a width that are not negative, and markup gives only
activities of known kinds. So an expression is found, or the markup is to blame, as long as every line
can be indented; and the walk never comes above the depth it began at.

* `flow_of_load` : what is known of settings that were loaded;
* `known_convertAll`, `heights_convertAll` : kinds and height of the activities of markup;
* `markup_contained` : the outcomes for any settings and markup, and the depths of the walk.
-/

namespace Flowsmith.Flow

open Definition (Node Kind Bindings Vocabulary)

/-! ## Settings that were loaded -/

theorem flow_of_check {s s' : Settings} (h : s.check = .ok s') :
    0 ≤ s'.flow.baseDepth ∧ 0 ≤ s'.flow.indentWidth := by
  unfold Settings.check at h
  dsimp only at h
  split at h
  · cases h
  · split at h
    · cases h
    · rename_i hdepth
      split at h
      · cases h
      · rename_i hwidth
        have hsame : s = s' := by
          split at h
          · cases h
          · split at h <;> cases h
            rfl
        subst hsame
        omega

theorem flow_of_load {σ : Type} [FileStore σ] {sources : Settings.Sources} {t t' : σ} {s : Settings}
    (h : Ends (Settings.load sources) t s t') :
    0 ≤ s.flow.baseDepth ∧ 0 ≤ s.flow.indentWidth := by
  unfold Settings.load at h
  obtain ⟨found, t₁, -, h⟩ := Ends.bind_iff.1 h
  obtain ⟨asked, t₂, h⟩ : ∃ asked t₂, Ends (MonadExcept.ofExcept (Settings.ofLayers (found ++ asked
      ++ [sources.overrides.expand, Settings.environmentLayer sources.environment]))) t₂ s t' := by
    dsimp only at h
    split at h <;> obtain ⟨asked, t₂, -, h⟩ := Ends.bind_iff.1 h <;> exact ⟨asked, t₂, h⟩
  obtain ⟨hlayers, -⟩ := Ends.ofExcept_iff.1 h
  unfold Settings.ofLayers Settings.decode at hlayers
  split at hlayers
  · exact flow_of_check hlayers
  · cases hlayers

/-! ## Definitions of markup -/

theorem classify?_known {v : Vocabulary} {n : Xml.Name} {k : Kind} (h : v.classify? n = some k) :
    k ≠ .unknown := by
  unfold Vocabulary.classify? at h
  rintro rfl
  split at h
  · cases h
  · split at h
    · cases h
    · split at h
      · cases h
      · split at h
        · cases h
        · split at h <;> cases h

theorem reachedAll_append (d : Int) (ns ms : List Node) :
    reachedAll d (ns ++ ms) = reachedAll d ns ++ reachedAll d ms := by
  induction ns with
  | nil => rfl
  | cons n ns ih => rw [List.cons_append, reachedAll, reachedAll, ih, List.append_assoc]

theorem mem_reached {d : Int} {n : Node} {x : Int × Node} (h : x ∈ reached d n) :
    x = (d, n) ∨ ∃ d', (d' = d ∨ d' = d + 1) ∧ x ∈ reachedAll d' n.children := by
  obtain ⟨kind, tag, space, attrs, children⟩ := n
  unfold reached at h
  rcases List.mem_cons.1 h with rfl | h
  · exact Or.inl rfl
  · right
    cases kind with
    | sequence => exact ⟨d, Or.inl rfl, h⟩
    | conditional => exact ⟨d, Or.inl rfl, h⟩
    | branch => exact ⟨d + 1, Or.inr rfl, h⟩
    | step => cases h
    | condition => cases h
    | unknown => cases h

theorem known_convertAll (v : Vocabulary) (ns : List Xml.Node) (d : Int) :
    ∀ x ∈ reachedAll d (Definition.convertAll v ns), x.2.kind ≠ .unknown := by
  induction ns using Xml.forest_induction generalizing d with
  | nil => exact nofun
  | element name attrs children ns ihc ihn =>
    intro x hx
    rw [Definition.convertAll, reachedAll_append] at hx
    rcases List.mem_append.1 hx with hx | hx
    · rw [Definition.convertNode] at hx
      split at hx
      · rename_i kind hkind
        rw [reachedAll, reachedAll, List.append_nil] at hx
        rcases mem_reached hx with rfl | ⟨d', -, hx⟩
        · exact classify?_known hkind
        · exact ihc d' x hx
      · cases hx
    · exact ihn d x hx
  | leaf n ns hn ihn =>
    have hnone : Definition.convertNode v n = [] := by cases n <;> first | rfl | cases hn
    rw [Definition.convertAll, hnone, List.nil_append]
    exact ihn d

theorem length_joinLevels {α : Type} (as bs : List (List α)) :
    (Xml.joinLevels as bs).length = max as.length bs.length := by
  induction as generalizing bs with
  | nil => simp [Xml.joinLevels]
  | cons a as ih =>
    cases bs with
    | nil => simp [Xml.joinLevels]
    | cons b bs =>
      rw [Xml.joinLevels, List.length_cons, ih, List.length_cons, List.length_cons]
      omega

/-- The activities of markup lie no deeper inside one another than its elements. -/
theorem heights_convertAll (v : Vocabulary) (ns : List Xml.Node) :
    heights (Definition.convertAll v ns) ≤ (Xml.levels ns).length := by
  induction ns using Xml.forest_induction with
  | nil => exact Nat.le_refl 0
  | element name attrs children ns ihc ihn =>
    have hhead : heights (Definition.convertNode v (.element name attrs children)) ≤
        (Xml.levels children).length + 1 := by
      rw [Definition.convertNode]
      split
      · rw [heights, heights, height]
        omega
      · exact Nat.zero_le _
    rw [Definition.convertAll, heights_append, Xml.levels, length_joinLevels, Xml.Node.levels,
      List.length_cons]
    omega
  | leaf n ns hn ihn =>
    have hnone : Definition.convertNode v n = [] := by cases n <;> first | rfl | cases hn
    have hlevels : n.levels = [] := by cases n <;> first | rfl | cases hn
    rw [Definition.convertAll, hnone, List.nil_append, Xml.levels, hlevels]
    exact ihn

/-- The first element of a document lies above its children. -/
theorem levels_root {ns children : List Xml.Node} {name : Xml.Name} {attrs : List Xml.Attribute}
    (h : Xml.root? ns = some (name, attrs, children)) :
    (Xml.levels children).length + 1 ≤ (Xml.levels ns).length := by
  induction ns with
  | nil => cases h
  | cons n ns ih =>
    rw [Xml.levels, length_joinLevels]
    cases n with
    | element name' attrs' children' =>
      cases h
      rw [Xml.Node.levels, List.length_cons]
      omega
    | _ =>
      have htail := ih h
      omega

/-- A definition that was read: a sequence whose activities have known kinds and lie no deeper inside
one another than the elements of the markup. -/
theorem of_read {v : Vocabulary} {markup : Bytes} {doc : Definition.Document}
    (h : Definition.read v markup = .ok doc) :
    ∃ nodes root, Xml.parse markup = .ok nodes ∧ doc.root? = some root ∧ root.kind = .sequence ∧
      (∀ d, ∀ x ∈ reachedAll d root.children, x.2.kind ≠ .unknown) ∧
      heights root.children + 1 ≤ (Xml.levels nodes).length := by
  unfold Definition.read at h
  split at h
  · rename_i nodes hparse
    unfold Definition.ofNodes at h
    split at h
    · cases h
    · rename_i name attrs children hroot
      split at h
      · cases h
        have hheights := heights_convertAll v children
        have hlevels := levels_root hroot
        exact ⟨nodes, _, hparse, rfl, rfl, known_convertAll v children,
          Nat.le_trans (Nat.succ_le_succ hheights) hlevels⟩
      · cases h
  · cases h

theorem code?_of_read {v : Vocabulary} {markup : Bytes} {f : Fault}
    (h : Definition.read v markup = .error f) :
    f.code? = some .markupParse ∨ f.code? = some .malformed := by
  unfold Definition.read at h
  split at h
  · unfold Definition.ofNodes at h
    split at h
    · cases h
      exact Or.inl rfl
    · split at h
      · cases h
      · cases h
        exact Or.inr rfl
  · rename_i g hparse
    cases h
    unfold Xml.parse at hparse
    split at hparse
    · cases hparse
    · cases hparse
      exact Or.inl rfl

/-! ## Every line can be indented -/

mutual

/-- What is reached lies between the depth it is reached from and that depth with the height. -/
theorem depth_reached : ∀ (d : Int) (n : Node), ∀ x ∈ reached d n, d ≤ x.1 ∧ x.1 + 1 ≤ d + height n
  | d, .mk kind tag space attrs children, x, hx => by
    rw [height]
    unfold reached at hx
    rcases List.mem_cons.1 hx with rfl | hx
    · simp only
      omega
    · have hsame := depth_reachedAll d children x
      have hdeeper := depth_reachedAll (d + 1) children x
      cases kind with
      | sequence =>
        have h := hsame hx
        omega
      | conditional =>
        have h := hsame hx
        omega
      | branch =>
        have h := hdeeper hx
        omega
      | step => cases hx
      | condition => cases hx
      | unknown => cases hx

theorem depth_reachedAll : ∀ (d : Int) (ns : List Node), ∀ x ∈ reachedAll d ns,
    d ≤ x.1 ∧ x.1 + 1 ≤ d + heights ns
  | d, [], x, hx => by cases hx
  | d, n :: ns, x, hx => by
    rw [heights]
    rw [reachedAll] at hx
    rcases List.mem_append.1 hx with hx | hx
    · have h := depth_reached d n x hx
      omega
    · have h := depth_reachedAll d ns x hx
      omega

end

/-- A depth can be indented when the product of depth and width can be had as a text. -/
theorem padding?_isSome {width d : Int} (hlow : 0 ≤ d * width) (hhigh : d * width ≤ widestIndent) :
    (padding? width d).isSome = true := by
  have hwidest : widestIndent = 281474976710656 := rfl
  have hsame : Int.bmod (d * width) (twoTo 64) = d * width := by
    have hpower : twoTo 64 = 18446744073709551616 := rfl
    rw [hpower]
    apply Int.bmod_eq_of_le <;> omega
  unfold padding?
  simp only [hsame]
  rw [if_pos ⟨hlow, hhigh⟩]
  rfl

/-- The walk over activities whose lines can all be indented fails only when they are to blame. -/
theorem isBlame_of_expression {o : Options} {b : Bindings} {root : Node} {f : Fault}
    (hd : 0 ≤ o.baseDepth) (hk : root.kind = .sequence)
    (hknown : ∀ x ∈ reachedAll o.baseDepth root.children, x.2.kind ≠ .unknown)
    (hlaid : ∀ x ∈ reachedAll o.baseDepth root.children, Indented o x)
    (h : expression o ⟨some root, b⟩ = .error f) : IsBlame f := by
  rw [expression_eq o b root hd hk] at h
  rcases join_eq_error h with h | h
  · cases h
  · rcases lowerNodes_explained o b o.baseDepth strayCondition root.children f
      (fun n _ => isBlame_misplaced _ _ _) hknown h with h | ⟨-, x, hx, hi⟩
    · exact h
    · exact absurd (hlaid x hx) hi

/-- **Nothing else goes wrong with an expression.** For settings that were loaded and any markup, as
long as the deepest line can be indented, there is an expression or a fault that the markup is to blame
for. Wherever the walk comes to, in front of a stretch and behind it, it is not above the depth it began
at nor too deep, and behind an activity it is as deep as in front of it. -/
theorem markup_contained {σ : Type} [FileStore σ] {sources : Settings.Sources} {t t' : σ}
    {s : Settings} (hload : Ends (Settings.load sources) t s t') (markup : Bytes)
    (hfits : ∀ nodes, Xml.parse markup = .ok nodes →
      s.flow.baseDepth + (Xml.levels nodes).length < twoTo 63 ∧
      (s.flow.baseDepth + (Xml.levels nodes).length) * s.flow.indentWidth ≤ widestIndent) :
    ((∃ e, ofMarkup s.flow markup = .ok e) ∨
      ∃ f, ofMarkup s.flow markup = .error f ∧
        (f.code? = some .markupParse ∨ f.code? = some .malformed ∨
          f.code? = some .missingCondition ∨ f.code? = some .namespaceLookup)) ∧
    ∀ doc root, Definition.read (.ofSettings s.flow) markup = .ok doc → doc.root? = some root →
      ∀ stretch st, Relation.ReflTransGen (Calls (.ofSettings s.flow) doc.bindings)
          (.nodes root.children, { depth := s.flow.baseDepth, out := s.flow.receiver })
          (stretch, st) →
        (s.flow.baseDepth ≤ st.depth ∧ st.depth < twoTo 63) ∧
        ∀ st', stretch.run (.ofSettings s.flow) doc.bindings st = .ok st' →
          (s.flow.baseDepth ≤ st'.depth ∧ st'.depth < twoTo 63) ∧
          ((∃ n, stretch = .node n) → st'.depth = st.depth) := by
  obtain ⟨hdepth, hwidth⟩ := flow_of_load hload
  constructor
  · cases hread : Definition.read (.ofSettings s.flow) markup with
    | error f =>
      right
      refine ⟨f, by rw [ofMarkup, hread]; rfl, ?_⟩
      rcases code?_of_read hread with h | h
      · exact Or.inl h
      · exact Or.inr (Or.inl h)
    | ok doc =>
      have hmarkup : ofMarkup s.flow markup = expression (.ofSettings s.flow) doc := by
        rw [ofMarkup, hread]
        rfl
      obtain ⟨nodes, root, hparse, hroot, hk, hknown, hheight⟩ := of_read hread
      obtain ⟨hdeep, hwide⟩ := hfits nodes hparse
      rw [hmarkup]
      cases hexp : expression (.ofSettings s.flow) doc with
      | ok e => exact Or.inl ⟨e, rfl⟩
      | error f =>
        right
        obtain ⟨root?, bindings⟩ := doc
        obtain rfl : root? = some root := hroot
        refine ⟨f, rfl, Or.inr (isBlame_of_expression hdepth hk (hknown _) ?_ hexp)⟩
        intro x hx _
        obtain ⟨hlow, hhigh⟩ := depth_reachedAll _ root.children x hx
        have hx0 : 0 ≤ x.1 := Int.le_trans hdepth hlow
        have hx1 : x.1 ≤ s.flow.baseDepth + (Xml.levels nodes).length := by
          have hbase : (Options.ofSettings s.flow).baseDepth = s.flow.baseDepth := rfl
          omega
        apply padding?_isSome (Int.mul_nonneg hx0 hwidth)
        exact Int.le_trans (Int.mul_le_mul_of_nonneg_right hx1 hwidth) hwide
  · intro doc root hread hroot stretch st hcalls
    obtain ⟨nodes, root', hparse, hroot', -, -, hheight⟩ := of_read hread
    obtain rfl : root = root' := Option.some.inj (hroot.symm.trans hroot')
    obtain ⟨hdeep, -⟩ := hfits nodes hparse
    have hbetween := between_of_calls hcalls
    refine ⟨?_, fun st' hrun => ⟨?_, ?_⟩⟩
    · obtain ⟨hlow, hhigh⟩ := hbetween.start
      simp only at hlow hhigh
      exact ⟨hlow, by omega⟩
    · obtain ⟨hlow, hhigh⟩ := hbetween.finish hrun
      simp only at hlow hhigh
      exact ⟨hlow, by omega⟩
    · rintro ⟨n, rfl⟩
      exact depth_runNode _ _ n st st' hrun

theorem optionalLayers_empty : Ends (Settings.optionalLayers [Path.join Path.here Settings.localName])
    Memory.empty [] Memory.empty := rfl

/-- Settings over which only the caller says something, where there are no files. -/
theorem load_of_overrides {t : Settings.Table} {s : Settings}
    (h : Settings.ofLayers [t.expand, Settings.environmentLayer []] = .ok s) :
    Ends (Settings.load { overrides := t }) Memory.empty s Memory.empty := by
  unfold Settings.load
  apply Ends.bind_iff.2
  refine ⟨[], Memory.empty, optionalLayers_empty, ?_⟩
  apply Ends.bind_iff.2
  refine ⟨[], Memory.empty, Ends.pure_iff.2 ⟨rfl, rfl⟩, ?_⟩
  exact Ends.ofExcept_iff.2 ⟨h, rfl⟩

/-- A step with a prefix that is not declared, in a sequence in a sequence. -/
def undeclared : Bytes :=
  "<SequenceActivity><SequenceActivity><x:A/></SequenceActivity></SequenceActivity>"

set_option maxRecDepth 20000 in
theorem markup_contained_undeclared : ∃ s f,
    Ends (Settings.load { overrides := [] }) Memory.empty s Memory.empty ∧
    (∀ nodes, Xml.parse undeclared = .ok nodes →
      s.flow.baseDepth + (Xml.levels nodes).length < twoTo 63 ∧
      (s.flow.baseDepth + (Xml.levels nodes).length) * s.flow.indentWidth ≤ widestIndent) ∧
    ofMarkup s.flow undeclared = .error f ∧
    (f.code? = some .markupParse ∨ f.code? = some .malformed ∨ f.code? = some .missingCondition ∨
      f.code? = some .namespaceLookup) := by
  have hsettings : (Settings.ofLayers
      [Settings.Table.expand [], Settings.environmentLayer []]).toOption.map
      (fun s => (s.flow.baseDepth, s.flow.indentWidth, (ofMarkup s.flow undeclared).toOption.isSome))
        = some (4, 4, false) := by
    rw [undeclared, Bytes.ofString_ofList]
    decide +kernel
  obtain ⟨s, hs, hvalues⟩ := Option.map_eq_some_iff.1 hsettings
  have hload := load_of_overrides (eq_ok_of_toOption hs)
  simp only [Prod.mk.injEq] at hvalues
  obtain ⟨hdepth, hwidth, hfails⟩ := hvalues
  have hlevels : (Xml.parse undeclared).toOption.map (fun nodes => (Xml.levels nodes).length)
      = some 3 := by
    rw [undeclared, Bytes.ofString_ofList]
    decide +kernel
  have hfits : ∀ nodes, Xml.parse undeclared = .ok nodes →
      s.flow.baseDepth + (Xml.levels nodes).length < twoTo 63 ∧
      (s.flow.baseDepth + (Xml.levels nodes).length) * s.flow.indentWidth ≤ widestIndent := by
    intro nodes hparse
    rw [hparse] at hlevels
    have hthree : (Xml.levels nodes).length = 3 := Option.some.inj hlevels
    rw [hdepth, hwidth, hthree]
    decide
  rcases (markup_contained hload undeclared hfits).1 with ⟨e, he⟩ | ⟨f, hf, hcode⟩
  · rw [he] at hfails
    cases hfails
  · exact ⟨s, f, hload, hfits, hf, hcode⟩

def oneLine : Bytes := "<SequenceActivity><A/></SequenceActivity>"

set_option maxRecDepth 20000 in
/-- The products of all depths with the width are 64-bit integers, but no text is as long as the
indentation of the first line. -/
theorem wide_indent_aborts : ∃ s,
    Ends (Settings.load { overrides := [("flow.indent_width", .whole 562949953421312)] })
      Memory.empty s Memory.empty ∧
    (∀ nodes, Xml.parse oneLine = .ok nodes →
      (s.flow.baseDepth + (Xml.levels nodes).length) * s.flow.indentWidth < twoTo 63) ∧
    ofMarkup s.flow oneLine = .error (.aborted .negativeIndent) := by
  have hsettings : (Settings.ofLayers
      [Settings.Table.expand [("flow.indent_width", .whole 562949953421312)],
        Settings.environmentLayer []]).toOption.map
      (fun s => (s.flow.baseDepth, s.flow.indentWidth,
        decide (ofMarkup s.flow oneLine = .error (.aborted .negativeIndent))))
        = some (4, 562949953421312, true) := by
    rw [oneLine]
    repeat rw [Bytes.ofString_ofList]
    decide +kernel
  obtain ⟨s, hs, hvalues⟩ := Option.map_eq_some_iff.1 hsettings
  simp only [Prod.mk.injEq, decide_eq_true_eq] at hvalues
  obtain ⟨hdepth, hwidth, haborts⟩ := hvalues
  have hlevels : (Xml.parse oneLine).toOption.map (fun nodes => (Xml.levels nodes).length)
      = some 2 := by
    rw [oneLine, Bytes.ofString_ofList]
    decide +kernel
  refine ⟨s, load_of_overrides (eq_ok_of_toOption hs), fun nodes hparse => ?_, haborts⟩
  rw [hparse] at hlevels
  have htwo : (Xml.levels nodes).length = 2 := Option.some.inj hlevels
  rw [hdepth, hwidth, htwo]
  decide

end Flowsmith.Flow
