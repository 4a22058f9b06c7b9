import Flowsmith.Migration.Workflow
import Flowsmith.Proofs.Flow.Strict

/-!
# Strict settings

Settings can ask that a missing condition and a dropped accessor are faults. A strict run then is a
lenient run whose first warning is a fault: it gives the same class where the lenient one has nothing
to warn of, and fails everywhere else.

* `Settings.setStrict` : settings with both of them set or both left out;
* `carryMembers_hardens` : the lenient and the strict members of a class;
* `transpile_strict` : the lenient and the strict flow class of a workflow.
-/

namespace Flowsmith

/-- The settings with missing conditions and dropped accessors both treated as faults, or neither. -/
def Settings.setStrict (s : Settings) (strict : Bool) : Settings :=
  { s with flow := { s.flow with strictConditions := strict }, strictAccessors := strict }

namespace FlowClass

/-- The options with another treatment of dropped accessors. -/
def CarryOptions.setStrict (o : CarryOptions) (strict : Bool) : CarryOptions :=
  { o with strict := strict }

/-- Whether a member is a property with an accessor that has a body, which is one that is not written
with a semicolon. -/
def hasAccessorBody (m : Source.Member) : Bool := m.accessors.any (!·.auto)

/-- The fault names the first property of the class that has an accessor with a body. -/
def DropsFirst (ms : List Source.Member) (f : Fault) : Prop :=
  ∃ m, ms.find? hasAccessorBody = some m ∧ f = droppedFault m.name (droppedAccessors m)

theorem isEmpty_droppedAccessors (m : Source.Member) :
    (droppedAccessors m).isEmpty = !hasAccessorBody m := by
  unfold droppedAccessors hasAccessorBody
  rw [List.isEmpty_map, Bool.eq_iff_iff]
  simp

/-- A member without accessor bodies becomes the same in both runs, and without a warning. -/
theorem carryMember_of_plain (o : CarryOptions) {m : Source.Member} (h : hasAccessorBody m = false) :
    ∃ c, c.warnings = [] ∧ ∀ strict, carryMember (o.setStrict strict) m = .ok c := by
  have hempty : (droppedAccessors m).isEmpty = true := by rw [isEmpty_droppedAccessors, h]; rfl
  unfold carryMember
  split
  · simp only [hempty, if_true]
    exact ⟨_, rfl, fun _ => rfl⟩
  · by_cases hc : isConditionHandler o.eventArgs m = true
    · exact ⟨{ members := [callbackOf m] }, rfl, fun _ => if_pos hc⟩
    · exact ⟨{ members := [.method m.name m.text m.column] }, rfl, fun _ => if_neg hc⟩
  · exact ⟨_, rfl, fun _ => rfl⟩

/-- A property with accessor bodies is where the two runs part. -/
theorem carryMember_of_body (o : CarryOptions) {m : Source.Member} (h : hasAccessorBody m = true) :
    (∃ c w, carryMember (o.setStrict false) m = .ok c ∧ c.warnings = [w]) ∧
    carryMember (o.setStrict true) m = .error (droppedFault m.name (droppedAccessors m)) := by
  have hempty : (droppedAccessors m).isEmpty = false := by rw [isEmpty_droppedAccessors, h]; rfl
  unfold carryMember
  split
  · simp only [hempty, CarryOptions.setStrict, Bool.false_eq_true, if_false, if_true, and_true]
    exact ⟨_, _, rfl, rfl⟩
  all_goals
    rename_i hshape
    simp [hasAccessorBody, Source.Member.accessors, hshape] at h

theorem carryMembers_lenient (o : CarryOptions) (ms : List Source.Member) :
    ∃ c, carryMembers (o.setStrict false) ms = .ok c := by
  induction ms with
  | nil => exact ⟨_, rfl⟩
  | cons m ms ih =>
    obtain ⟨rest, hrest⟩ := ih
    have hfirst : ∃ c, carryMember (o.setStrict false) m = .ok c := by
      cases h : hasAccessorBody m with
      | false =>
        obtain ⟨c, -, hc⟩ := carryMember_of_plain o h
        exact ⟨c, hc false⟩
      | true =>
        obtain ⟨⟨c, w, hc, -⟩, -⟩ := carryMember_of_body o h
        exact ⟨c, hc⟩
    obtain ⟨first, hfirst⟩ := hfirst
    refine ⟨first.append rest, ?_⟩
    rw [carryMembers, hfirst, hrest]
    rfl

theorem carryMembers_hardens (o : CarryOptions) (ms : List Source.Member) :
    Hardens Carried.warnings (DropsFirst ms) []
      (carryMembers (o.setStrict false) ms) (carryMembers (o.setStrict true) ms) := by
  induction ms with
  | nil => exact .together rfl
  | cons m ms ih =>
    obtain ⟨rest, hrest⟩ := carryMembers_lenient o ms
    rw [carryMembers, carryMembers]
    cases h : hasAccessorBody m with
    | true =>
      obtain ⟨⟨first, w, hfirst, hw⟩, hstrict⟩ := carryMember_of_body o h
      rw [hfirst, hstrict, hrest]
      have hall : (first.append rest).warnings = [] ++ w :: rest.warnings := by
        simp [Carried.append, hw]
      exact .stopped hall ⟨m, by simp [h], rfl⟩
    | false =>
      obtain ⟨first, hw, hfirst⟩ := carryMember_of_plain o h
      rw [hfirst, hfirst]
      have hms : Hardens Carried.warnings (DropsFirst (m :: ms)) []
          (carryMembers (o.setStrict false) ms) (carryMembers (o.setStrict true) ms) := by
        refine ih.mono fun f hf => ?_
        obtain ⟨p, hp, rfl⟩ := hf
        exact ⟨p, by rw [List.find?_cons, h]; exact hp, rfl⟩
      exact hms.bind fun rest => .together (by simp [Carried.append, hw])

end FlowClass

namespace Workflow

/-! ## Transpiling -/

def FlowWarns (s : Settings) (w : Workflow) : Prop :=
  ∃ e, Flow.ofMarkup (s.setStrict false).flow w.markup = .ok e ∧ e.warnings ≠ []

/-- The fault names the first property of the code-behind class that has an accessor with a body. -/
def NamesDropped (w : Workflow) (f : Fault) : Prop :=
  ∃ source c m, Source.outline w.codeBehind = .ok source ∧ source.class? = some c ∧
    c.members.find? FlowClass.hasAccessorBody = some m ∧
    ∃ details, f.details? = some details ∧ (("property" : Bytes), Detail.text m.name) ∈ details

theorem ofMarkup_hardens (s : Settings.Flow) (markup : Bytes) :
    Hardens Flow.Expression.warnings Flow.LacksCondition []
      (Flow.ofMarkup { s with strictConditions := false } markup)
      (Flow.ofMarkup { s with strictConditions := true } markup) := by
  unfold Flow.ofMarkup
  change Hardens _ _ _ (Definition.read (.ofSettings s) markup >>= _)
    (Definition.read (.ofSettings s) markup >>= _)
  cases Definition.read (.ofSettings s) markup with
  | error f => exact .failed
  | ok doc => exact Flow.expression_hardens (.ofSettings s) doc

theorem carry_hardens (o : FlowClass.CarryOptions) (cls : Option Source.Class) :
    Hardens FlowClass.Carried.warnings
      (fun f => ∃ c, cls = some c ∧ FlowClass.DropsFirst c.members f) []
      (FlowClass.carry (o.setStrict false) cls) (FlowClass.carry (o.setStrict true) cls) := by
  cases cls with
  | none => exact .failed
  | some c => exact (FlowClass.carryMembers_hardens o c.members).mono fun f hf => ⟨c, rfl, hf⟩

theorem blame_hardens {α : Type} {warnings : α → List Bytes} {stops : Fault → Prop}
    {seen : List Bytes} {x y : Except Fault α} (file : Bytes) (h : Hardens warnings stops seen x y) :
    Hardens warnings (fun f => ∃ g, stops g ∧ f = g.withDetail "file" (.text file)) seen
      (blame file x) (blame file y) := by
  cases h with
  | failed => exact .failed
  | together ha => exact .together ha
  | stopped ha hf => exact .stopped ha ⟨_, hf, rfl⟩

def transpileFlow (s : Settings) (w : Workflow) (flow : Flow.Expression) :
    Except Fault Transpiled := do
  let source ← Source.outline w.codeBehind
  let carried ← blame w.codeBehindPath (FlowClass.carry (.ofSettings s) source.class?)
  let base := FlowClass.build (.ofSettings s) w.name
  let cls : FlowClass.Class :=
    { base with
      configure? := some (FlowClass.configureMethod flow.text s.types.flowRunner s.flow.receiver)
      members := carried.members }
  let file : FlowClass.File :=
    { space := w.space, usings := keptUsings source.usings, class? := some cls }
  return ⟨w.name, flow.text, file.render, flow.warnings ++ carried.warnings, carried.skipped⟩

theorem transpile_eq (s : Settings) (w : Workflow) :
    w.transpile s = (blame w.markupPath (Flow.ofMarkup s.flow w.markup) >>= transpileFlow s w) := rfl

/-- The fault about a property still names it when the file is added. -/
theorem details?_droppedFault (name file : Bytes) (dropped : List Bytes) :
    ∃ details, ((FlowClass.droppedFault name dropped).withDetail "file" (.text file)).details?
      = some details ∧ (("property" : Bytes), Detail.text name) ∈ details := by
  refine ⟨_, rfl, List.mem_append_left _ (List.mem_filter.2 ⟨List.mem_cons_self, ?_⟩)⟩
  exact (by decide : (("property" : Bytes) != ("file" : Bytes)) = true)

/-- Two runs with one flow part at the first property that has an accessor with a body. -/
theorem transpileFlow_hardens (s : Settings) (w : Workflow) (flow : Flow.Expression) :
    Hardens Transpiled.warnings (fun f => f.code? = some .droppedAccessor ∧ NamesDropped w f)
      flow.warnings (transpileFlow (s.setStrict false) w flow)
      (transpileFlow (s.setStrict true) w flow) := by
  unfold transpileFlow
  cases hsource : Source.outline w.codeBehind with
  | error f => exact .failed
  | ok source =>
    have hcarry := (carry_hardens (.ofSettings s) source.class?).after flow.warnings
    rw [List.append_nil] at hcarry
    have hblame := blame_hardens w.codeBehindPath hcarry
    change Hardens _ _ _ (blame w.codeBehindPath
        (FlowClass.carry ((FlowClass.CarryOptions.ofSettings s).setStrict false) source.class?) >>= _)
      (blame w.codeBehindPath
        (FlowClass.carry ((FlowClass.CarryOptions.ofSettings s).setStrict true) source.class?) >>= _)
    refine Hardens.bind (hblame.mono fun f hf => ?_) fun carried => .together rfl
    obtain ⟨-, ⟨c, hc, m, hm, rfl⟩, rfl⟩ := hf
    exact ⟨rfl, source, c, m, hsource, hc, hm, details?_droppedFault _ _ _⟩

theorem transpile_hardens (s : Settings) (w : Workflow) :
    Hardens Transpiled.warnings
      (fun f => (FlowWarns s w → f.code? = some .missingCondition) ∧
        (¬ FlowWarns s w → f.code? = some .droppedAccessor ∧ NamesDropped w f)) []
      (w.transpile (s.setStrict false)) (w.transpile (s.setStrict true)) := by
  have hflow : Hardens Flow.Expression.warnings Flow.LacksCondition []
      (Flow.ofMarkup (s.setStrict false).flow w.markup)
      (Flow.ofMarkup (s.setStrict true).flow w.markup) := ofMarkup_hardens s.flow w.markup
  rw [transpile_eq, transpile_eq]
  unfold FlowWarns
  revert hflow
  generalize Flow.ofMarkup (s.setStrict false).flow w.markup = x
  generalize Flow.ofMarkup (s.setStrict true).flow w.markup = y
  intro hflow
  cases hflow with
  | failed => exact .failed
  | @together e hquiet =>
    have hrest := transpileFlow_hardens s w e
    rw [hquiet] at hrest
    refine hrest.mono fun f hf => ⟨?_, fun _ => hf⟩
    rintro ⟨_, ⟨⟩, hwarn⟩
    exact absurd hquiet hwarn
  | @stopped e warning rest f hwarn hf =>
    have hwarns : e.warnings ≠ [] := by simp [hwarn]
    have hlacks : (f.withDetail "file" (.text w.markupPath)).code? = some .missingCondition :=
      (Fault.code?_withDetail _ _ f).trans hf
    have hrest := transpileFlow_hardens s w e
    change Hardens _ _ _ (transpileFlow (s.setStrict false) w e) (.error _)
    rw [hwarn] at hrest
    revert hrest
    generalize transpileFlow (s.setStrict false) w e = u
    generalize transpileFlow (s.setStrict true) w e = v
    intro hrest
    -- the strict run has stopped already, so only what the lenient one warned of counts
    cases hrest with
    | failed => exact .failed
    | together ht => exact .stopped ht ⟨fun _ => hlacks, fun h => absurd ⟨e, rfl, hwarns⟩ h⟩
    | stopped ht _ =>
      exact .stopped (ht.trans (List.append_assoc _ _ _))
        ⟨fun _ => hlacks, fun h => absurd ⟨e, rfl, hwarns⟩ h⟩

/-- **Strict runs.** A strict run succeeds exactly when the lenient one does so without a warning, and
then with the same class. Where the lenient run warns, the strict one stops at a missing condition
when the flow has a warning, and else at the first property with an accessor that has a body. Where
the lenient run fails, so does the strict one. -/
theorem transpile_strict (s : Settings) (w : Workflow) :
    (∀ t, w.transpile (s.setStrict true) = .ok t ↔
      w.transpile (s.setStrict false) = .ok t ∧ t.warnings = []) ∧
    (∀ t, w.transpile (s.setStrict false) = .ok t → t.warnings ≠ [] →
      ∃ f, w.transpile (s.setStrict true) = .error f ∧
        (FlowWarns s w → f.code? = some .missingCondition) ∧
        (¬ FlowWarns s w → f.code? = some .droppedAccessor ∧ NamesDropped w f)) ∧
    ∀ f, w.transpile (s.setStrict false) = .error f →
      ∃ g, w.transpile (s.setStrict true) = .error g := by
  have h := transpile_hardens s w
  exact ⟨h.ok_iff, fun t ht hw => h.error_of_warning ht hw, fun f hf => h.error_of_error hf⟩

/-- A workflow with an empty flow and a property that computes its value. -/
def computed : Workflow :=
  { codeBehind := "class W \x7b int X \x7b get \x7b return 1; \x7d \x7d \x7d", name := "W",
    markup := "<SequenceActivity/>" }

theorem transpile_strict_computed :
    ∃ t f, computed.transpile (Settings.default.setStrict false) = .ok t ∧ t.warnings ≠ [] ∧
      computed.transpile (Settings.default.setStrict true) = .error f ∧
      f.code? = some .droppedAccessor ∧ NamesDropped computed f := by
  have hlenient : (computed.transpile (Settings.default.setStrict false)).toOption.map (·.warnings)
      = some [("property X: dropped body of get accessor" : Bytes)] := by
    rw [computed]
    repeat rw [Bytes.ofString_ofList]
    decide +kernel
  have hflow : (Flow.ofMarkup (Settings.default.setStrict false).flow computed.markup).toOption.map
      (·.warnings) = some [] := by decide +kernel
  obtain ⟨t, ht, hwarn⟩ := Option.map_eq_some_iff.1 hlenient
  obtain ⟨e, he, hquiet⟩ := Option.map_eq_some_iff.1 hflow
  have hok := eq_ok_of_toOption ht
  have hne : t.warnings ≠ [] := by simp [hwarn]
  have hnot : ¬ FlowWarns Settings.default computed := by
    rintro ⟨e', he', hwarns⟩
    obtain rfl := Except.ok.inj ((eq_ok_of_toOption he).symm.trans he')
    exact hwarns hquiet
  obtain ⟨f, hf, -, hdropped⟩ := (transpile_strict Settings.default computed).2.1 t hok hne
  exact ⟨t, f, hok, hne, hf, hdropped hnot⟩

end Workflow

end Flowsmith
