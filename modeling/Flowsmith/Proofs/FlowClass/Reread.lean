import Flowsmith.Migration.Workflow
import Flowsmith.Proofs.Flow.Brackets
import Flowsmith.Proofs.FlowClass.Members
import Flowsmith.Proofs.FlowClass.Outlined

/-!
# Flow classes are read back

What is written for a workflow is read back as the class that was put together for it.

* `Carriable`, `Workflow.Named` : code-behind sources whose parts can be written anew, and names that can be
  written;
* `isUsing_target` : the target of a using directive can be written anew;
* `emits_parts` : the members of a flow class, with the method of the flow in front of them;
* `transpile_outline` : the outline of the flow class of a workflow.
-/

namespace Flowsmith

open Source (Token Nested IsTarget IsWord IsDotted IsDottedName Outline parts classBody headText memberGroups
  solid tokens raw flat)
open FlowClass (Portable Carried CarryOptions ClassOptions IsUsing Emits)

/-! ## What can be written anew -/

/-- A code-behind source whose parts can be written anew: its brackets and literals are closed, its
using directives hold no comments, and its declarations can be carried over. -/
structure Carriable (o : CarryOptions) (src : Bytes) : Prop where
  nested : Nested (tokens src)
  terminated : ∀ t ∈ tokens src, t.isTerminated = true
  usings : ∀ target ∈ (parts src).1, ∀ t ∈ tokens (raw src.slice target), t.isTrivia = false
  members : ∀ g ∈ memberGroups (classBody (parts src).2),
    ∀ m ∈ (Source.memberOf src.slice (headText (parts src).2) g).toOption, Portable o src g m

instance (o : CarryOptions) (src : Bytes) : Decidable (Carriable o src) :=
  decidable_of_iff (Nested (tokens src) ∧ (∀ t ∈ tokens src, t.isTerminated = true) ∧
    (∀ target ∈ (parts src).1, ∀ t ∈ tokens (raw src.slice target), t.isTrivia = false) ∧
    ∀ g ∈ memberGroups (classBody (parts src).2),
      ∀ m ∈ (Source.memberOf src.slice (headText (parts src).2) g).toOption, Portable o src g m)
    ⟨fun h => ⟨h.1, h.2.1, h.2.2.1, h.2.2.2⟩, fun h => ⟨h.1, h.2, h.3, h.4⟩⟩

/-- The names that a flow class is written with. No keyword is part of the type of a method, of the base of
the class and of its attribute. -/
structure Workflow.Named (s : Settings) (w : Workflow) : Prop where
  name : IsWord w.name
  space : IsDotted w.space
  flowBase : IsDottedName s.types.flowBase
  flowRunner : IsDottedName s.types.flowRunner
  configurationAttribute : IsDottedName s.types.configurationAttribute
  contextPropertyAttribute : IsDotted s.types.contextPropertyAttribute
  conditionalEventArgs : IsDotted s.types.conditionalEventArgs
  receiver : IsDotted s.flow.receiver

instance (s : Settings) (w : Workflow) : Decidable (w.Named s) :=
  decidable_of_iff (IsWord w.name ∧ IsDotted w.space ∧ IsDottedName s.types.flowBase ∧
    IsDottedName s.types.flowRunner ∧ IsDottedName s.types.configurationAttribute ∧
    IsDotted s.types.contextPropertyAttribute ∧ IsDotted s.types.conditionalEventArgs ∧
    IsDotted s.flow.receiver)
    ⟨fun ⟨h₁, h₂, h₃, h₄, h₅, h₆, h₇, h₈⟩ => ⟨h₁, h₂, h₃, h₄, h₅, h₆, h₇, h₈⟩,
      fun h => ⟨h.1, h.2, h.3, h.4, h.5, h.6, h.7, h.8⟩⟩

/-- All activities of the definition can be written: the types of the steps and the names of the conditions
are dotted, and no conditional takes the place of the condition of another. -/
def Workflow.IsSpelled (s : Settings) (w : Workflow) : Prop :=
  ∀ doc ∈ (Definition.read (.ofSettings s.flow) w.markup).toOption, ∀ root ∈ doc.root?,
    Flow.AllSpelled (.ofSettings s.flow) doc.bindings (Flow.reached 0 root)

instance (o : Flow.Options) (b : Definition.Bindings) (n : Definition.Node) : Decidable (Flow.Spelled o b n) :=
  decidable_of_iff
    ((Flow.isWritten o n = true → ∀ type ∈ (Flow.stepType b n).toOption, IsDotted type) ∧
      (n.kind = .condition → Flow.nameOf o n ≠ [] → IsDotted (Flow.nameOf o n)) ∧
      (n.kind = .conditional → ∀ first ∈ n.children.head?, Flow.givenName o first.children = [] →
        Flow.leadsToConditional first.children = false))
    ⟨fun ⟨h₁, h₂, h₃⟩ => ⟨fun hw type htype => h₁ hw type (by rw [htype]; rfl), h₂, h₃⟩,
      fun ⟨h₁, h₂, h₃⟩ => ⟨fun hw type htype => h₁ hw type (eq_ok_of_toOption htype), h₂, h₃⟩⟩

instance (s : Settings) (w : Workflow) : Decidable (w.IsSpelled s) := by
  unfold Workflow.IsSpelled Flow.AllSpelled
  infer_instance

/-! ## Using directives -/

theorem isUsing_target {src : Bytes} {target : List Token} (hends : ∀ t ∈ tokens src, t.isTerminated = true)
    (h : IsTarget (solid (tokens src)) target)
    (hplain : ∀ t ∈ tokens (raw src.slice target), t.isTrivia = false) : IsUsing (flat src.slice target) := by
  obtain ⟨pre, post, hsolid⟩ := h.part
  obtain ⟨t, ht, hword⟩ := h.head
  obtain ⟨more, rfl⟩ := List.head?_eq_some_iff.1 ht
  have hmem : t ∈ tokens src := by
    refine (Source.mem_solid.1 ?_).1
    rw [hsolid]
    simp
  have hjunk : t.isJunk = false := Source.Token.not_isJunk_of_isWord hword
  have hsharp : t.is "#" = false := Source.isName_not_is (Source.isName_of_mem hmem hword) (by decide)
  obtain ⟨hthin, hclosed⟩ := (Source.piece_raw hends hsolid rfl).collapse rfl hjunk hsharp
    (List.all_eq_true.2 fun t ht => by simp [hplain t ht]) 0
  obtain ⟨t', more', htokens, halike, -⟩ := hthin.uncons hjunk
  refine ⟨⟨Source.collapse_collapse _, ?_, fun x hx => (hclosed x hx).1, fun x hx => (hclosed x hx).2⟩, ?_,
    fun x hx => ?_⟩
  · rintro hnil
    rw [flat] at hnil
    rw [hnil, Source.tokensFrom_nil] at htokens
    cases htokens
  · rw [flat, htokens, List.head?_cons, Option.any_some, halike.isWord]
    exact hword
  · obtain ⟨y, hy, hlike⟩ := hthin.exists_alike hx
    rw [hlike.is]
    exact h.inner y hy

/-! ## Members -/

theorem Source.outline_inv {src : Bytes} {o : Outline} (h : Source.outline src = .ok o) :
    o.usings = (parts src).1.map (flat src.slice) ∧
    ∀ c, o.class? = some c → ∃ before keyword,
      Source.classOf src.slice ((tokens src).filter (·.isTrivia)) before keyword (parts src).2 = .ok c := by
  obtain ⟨husings, hclass⟩ := Source.outlineFrom_inv h
  exact ⟨husings, fun c hc => hclass c hc rfl⟩

theorem Source.parts_mem (src : Bytes) :
    (∀ target ∈ (parts src).1, IsTarget (solid (tokens src)) target) ∧ (parts src).2 <:+ solid (tokens src) :=
  Source.partsFrom_mem src [] [] (solid (tokens src)) fun _ ht =>
    Source.isName_of_mem (Source.mem_solid.1 ht).1

theorem emits_parts {src : Bytes} {o : CarryOptions} {outline : Outline} {carried : Carried}
    (c : FlowClass.Class) (level : Nat) (h : Carriable o src) (hattr : IsDotted c.propertyAttribute)
    (hargs : IsDotted c.eventArgsType)
    (houtline : Source.outline src = .ok outline) (hcarried : FlowClass.carry o outline.class? = .ok carried) :
    Emits (carried.members.flatMap fun x => [Bytes.newline] ++ x.render level c) fun out =>
      Source.IsBody (carried.members.map FlowClass.Member.signature) out := by
  cases hclass : outline.class? with
  | none =>
    rw [hclass] at hcarried
    cases hcarried
  | some cls =>
    rw [hclass] at hcarried
    by_cases hnone : cls.members = []
    · rw [FlowClass.carry, hnone] at hcarried
      cases hcarried
      exact FlowClass.emits_nil.mono fun ts _ hts => hts ▸ Source.isBody_nil
    · obtain ⟨-, hread⟩ := Source.outline_inv houtline
      obtain ⟨before, keyword, hof⟩ := hread cls hclass
      obtain ⟨-, hsuffix⟩ := Source.parts_mem src
      have hnest : Nested (solid (tokens src)) := by
        unfold Nested
        rw [Source.unclosed_solid]
        exact h.nested
      obtain ⟨stack, hstack⟩ := Source.unclosed_suffix hnest hsuffix
      obtain ⟨pre, brace, close, post, hafter, -, hbody, hmembers⟩ := Source.classOf_inv hof hnone hstack
      obtain ⟨front, hfront⟩ := hsuffix
      have hsolid : solid (tokens src)
        = (front ++ pre) ++ [brace] ++ (classBody (parts src).2 ++ close :: post) := by
        refine hfront.symm.trans ((congrArg (front ++ ·) hafter).trans ?_)
        simp
      have hemits := FlowClass.emits_members c level h.terminated hattr hargs
        (fun t ht => (List.mem_filter.1 ht).1)
        (.of_solid hsolid rfl) hbody hmembers (fun g hg m hm => h.members g hg m (by rw [hm]; rfl)) hcarried
      exact hemits.mono fun ts _ hts => hts.1

/-! ## The flow class -/

theorem Workflow.blame_ok {α : Type} {file : Bytes} {r : Except Fault α} {a : α} (h : blame file r = .ok a) :
    r = .ok a := by
  cases r with
  | ok b => exact h
  | error f => cases h

theorem Workflow.turns_flow {s : Settings} {w : Workflow} {flow : Flow.Expression}
    (h : Flow.ofMarkup s.flow w.markup = .ok flow) (hreceiver : IsDotted s.flow.receiver)
    (hspelled : w.IsSpelled s) {r : Bytes} (hr : Source.Stops r) : Source.Turns [] [] flow.text r := by
  obtain ⟨doc, hdoc, hflow⟩ := bind_eq_ok h
  exact Flow.turns_expression hflow hreceiver (fun root hroot => hspelled doc (by rw [hdoc]; rfl) root hroot) hr

/-- **A flow class is read back.** The outline of what is written for a workflow has its namespace, the using
directives that are kept, and one public class with its name and the base of the settings. The members of
this class are the method of the flow and then those that are carried over, in their order, by name and by
form. -/
theorem Workflow.transpile_outline {s : Settings} {w : Workflow} {t : Transpiled} (h : w.transpile s = .ok t)
    (hnamed : w.Named s) (hspelled : w.IsSpelled s) (hcode : Carriable (.ofSettings s) w.codeBehind) :
    ∃ source carried out c, Source.outline w.codeBehind = .ok source ∧
      FlowClass.carry (.ofSettings s) source.class? = .ok carried ∧ Source.outline t.source = .ok out ∧
      out.space = w.space ∧ out.usings = Workflow.keptUsings source.usings ∧ out.class? = some c ∧
      FlowClass.ReadsAs w.name s.types.flowBase
        (("Configure", some .method) :: carried.members.map FlowClass.Member.signature) c := by
  obtain ⟨flow, hflow, h⟩ := bind_eq_ok h
  obtain ⟨source, hsource, h⟩ := bind_eq_ok h
  obtain ⟨carried, hcarried, h⟩ := bind_eq_ok h
  cases h
  have hflow := Workflow.blame_ok hflow
  have hcarried := Workflow.blame_ok hcarried
  have husings : ∀ u ∈ Workflow.keptUsings source.usings, IsUsing u := fun u hu => by
    have hmem := (List.mem_filter.1 hu).1
    rw [(Source.outline_inv hsource).1] at hmem
    obtain ⟨target, htarget, rfl⟩ := List.mem_map.1 hmem
    exact isUsing_target hcode.terminated ((Source.parts_mem _).1 target htarget) (hcode.usings target htarget)
  have hconfigure := FlowClass.emits_configure 2 hnamed.flowRunner hnamed.receiver
    fun r hr => Workflow.turns_flow hflow hnamed.receiver hspelled hr
  let cls := FlowClass.filled (.ofSettings s) w.name
    (FlowClass.configureMethod flow.text s.types.flowRunner s.flow.receiver) carried.members
  have hbody := hconfigure.blankLine.append (emits_parts cls 2 hcode hnamed.contextPropertyAttribute
    hnamed.conditionalEventArgs hsource hcarried)
    (R := Source.IsBody (("Configure", some .method) :: carried.members.map FlowClass.Member.signature))
    fun a b ha hb => ha.body hb False.elim
  obtain ⟨out, c, hout, hspace, hkept, hclass, hreads⟩ := FlowClass.outline_render
    (o := ClassOptions.ofSettings s) hnamed.space husings hnamed.configurationAttribute hnamed.flowBase
    hnamed.name hbody
  exact ⟨source, carried, out, c, hsource, hcarried, hout, hspace, hkept, hclass, hreads⟩

def briefSettings : Settings where
  flow :=
    { receiver := "f", sequenceElements := ["S"], conditionalElement := "C", branchElement := "B",
      conditionElements := ["K"], conditionAttribute := "Condition" }
  types :=
    { flowBase := "N.B", flowRunner := "N.R", configurationAttribute := "N.C",
      contextPropertyAttribute := "N.P", conditionalEventArgs := "N.E" }

/-- A workflow with a property, a condition handler and a method. -/
def routed : Workflow where
  name := "W"
  space := "N"
  markup := "<S xmlns:p='clr-namespace:A'><C><B><K Condition='H'/><p:G/></B></C></S>"
  codeBehind := "using A;class W\x7bint P\x7bget;\x7dvoid H(object s,E e)\x7b\x7dint F()=>1;\x7d"

theorem transpile_outline_routed :
    ∃ t out c, routed.transpile briefSettings = .ok t ∧ Source.outline t.source = .ok out ∧ out.space = "N" ∧
      out.usings = ["A"] ∧ out.class? = some c ∧
      FlowClass.ReadsAs "W" "N.B" [("Configure", some .method), ("P", some .property), ("H", some .method),
        ("F", some .method)] c := by
  have hsome : (routed.transpile briefSettings).toOption.isSome = true := by
    rw [routed, briefSettings]
    repeat rw [Bytes.ofString_ofList]
    decide +kernel
  obtain ⟨t, ht⟩ := Option.isSome_iff_exists.1 hsome
  have hok := eq_ok_of_toOption ht
  obtain ⟨source, carried, out, c, hsource, hcarried, hout, hspace, husings, hclass, hreads⟩ :=
    Workflow.transpile_outline hok (by decide +kernel) (by decide +kernel) (by
      rw [routed, briefSettings]
      repeat rw [Bytes.ofString_ofList]
      decide +kernel)
  have hparts : (Source.outline routed.codeBehind).toOption.map (fun o => (Workflow.keptUsings o.usings,
      (FlowClass.carry (.ofSettings briefSettings) o.class?).toOption.map
        (·.members.map FlowClass.Member.signature)))
      = some ([("A" : Bytes)], some ([("P", some .property), ("H", some .method), ("F", some .method)]
        : List (Bytes × Option Source.Form))) := by
    rw [routed, briefSettings]
    repeat rw [Bytes.ofString_ofList]
    decide +kernel
  rw [hsource] at hparts
  obtain ⟨hkept, hmembers⟩ := Prod.mk.inj (Option.some.inj hparts)
  rw [hcarried] at hmembers
  rw [hkept] at husings
  rw [show carried.members.map FlowClass.Member.signature = _ from Option.some.inj hmembers] at hreads
  exact ⟨t, out, c, hok, hout, hspace, husings, hclass, hreads⟩

/-- The members that are read back of the flow class of a workflow, and those that are written, by name and by
form. -/
def Workflow.reread (s : Settings) (w : Workflow) :
    Option (List (Bytes × Option Source.Form) × List (Bytes × Option Source.Form)) := do
  let t ← (w.transpile s).toOption
  let source ← (Source.outline w.codeBehind).toOption
  let carried ← (FlowClass.carry (.ofSettings s) source.class?).toOption
  let out ← (Source.outline t.source).toOption
  let c ← out.class?
  return (c.members.map Source.Member.signature,
    ("Configure", some .method) :: carried.members.map FlowClass.Member.signature)

/-- Code-behind sources with nested brackets and closed literals that are not read back: a type of a property
with an equals sign and one with a bracket of its own, a property with the name of an indexer, a handler
whose second parameter has no name, statements that begin with a number sign, and an arrow between brackets. -/
def misread : List Bytes :=
  ["class W\x7bL<a=b> P\x7bget;\x7d;int Q\x7bget;\x7d\x7d",
   "class W\x7bL<(>P\x7bget;\x7d);int Q\x7bget;\x7d\x7d",
   "class W\x7bint I.this\x7bget;\x7d\x7d",
   "class W\x7bvoid H(object s,(N.E) )\x7b\x7d\x7d",
   "class W\x7bvoid H(object s,E e)\x7b#(\n)\x7d\x7d",
   "class W\x7bvoid H(object s,E e)where T:X(()=>Y)\x7b\x7d\x7d"]

/-- **What has to be asked of the declarations.** None of these conditions follows from closed brackets and
literals, and from types and using directives without comments. -/
theorem transpile_outline_misread : misread.Forall fun src =>
    let w : Workflow := { name := "W", space := "N", markup := "<S/>", codeBehind := src }
    (w.Named briefSettings ∧ w.IsSpelled briefSettings ∧ Nested (tokens src) ∧
      (∀ t ∈ tokens src, t.isTerminated = true) ∧
      (∀ target ∈ (parts src).1, ∀ t ∈ tokens (raw src.slice target), t.isTrivia = false) ∧
      ∀ g ∈ memberGroups (classBody (parts src).2),
        ∀ t ∈ tokens (raw src.slice (Source.typeTokens g)), t.isTrivia = false) ∧
    ∃ members ∈ w.reread briefSettings, members.1 ≠ members.2 := by
  rw [misread, briefSettings]
  repeat rw [Bytes.ofString_ofList]
  decide +kernel

end Flowsmith
