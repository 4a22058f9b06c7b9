import Flowsmith.Flow.Expression
import Flowsmith.Proofs.Outcome

/-!
# Strict expressions

Strict options make a missing condition a fault; lenient ones make it a warning. The two walks over
a definition go on together until the first warning, where the strict one stops.

* `Hardens` : what a lenient and a strict run have to do with each other;
* `runNode_hardens` : the two walks over an activity, and those over its parts;
* `expression_hardens` : the two expressions of a definition.
-/

namespace Flowsmith

/-- The outcomes of a lenient and of a strict run, in this order, when the warnings `seen` have been
given before. Without a new warning they are the same. With one the strict run has stopped. Where
the lenient run fails, so does the strict one. -/
inductive Hardens {α : Type} (warnings : α → List Bytes) (stops : Fault → Prop)
    (seen : List Bytes) : Except Fault α → Except Fault α → Prop where
  | together {a : α} (h : warnings a = seen) : Hardens warnings stops seen (.ok a) (.ok a)
  | stopped {a : α} {w : Bytes} {ws : List Bytes} {f : Fault} (h : warnings a = seen ++ w :: ws)
      (hf : stops f) : Hardens warnings stops seen (.ok a) (.error f)
  | failed {f g : Fault} : Hardens warnings stops seen (.error f) (.error g)

namespace Hardens

variable {α β : Type} {wa : α → List Bytes} {wb : β → List Bytes} {stops : Fault → Prop}
  {seen : List Bytes} {x y : Except Fault α}

/-- A step that is the same in both runs and gives no warning. -/
theorem of_quiet (h : ∀ a, x = .ok a → wa a = seen) : Hardens wa stops seen x x := by
  cases x with
  | error f => exact failed
  | ok a => exact together (h a rfl)

theorem bind {k l : α → Except Fault β} (h : Hardens wa stops seen x y)
    (hk : ∀ a, Hardens wb stops (wa a) (k a) (l a)) : Hardens wb stops seen (x >>= k) (y >>= l) := by
  cases h with
  | failed => exact failed
  | @together a ha =>
    change Hardens wb stops seen (k a) (l a)
    rw [← ha]
    exact hk a
  | @stopped a w ws f ha hf =>
    change Hardens wb stops seen (k a) (.error f)
    have h := hk a
    rw [ha] at h
    generalize k a = u, l a = v at h
    cases h with
    | failed => exact failed
    | together hb => exact stopped hb hf
    | stopped hb _ => exact stopped (hb.trans (List.append_assoc _ _ _)) hf

theorem mono {halts : Fault → Prop} (h : Hardens wa stops seen x y) (hs : ∀ f, stops f → halts f) :
    Hardens wa halts seen x y := by
  cases h with
  | failed => exact failed
  | together ha => exact together ha
  | stopped ha hf => exact stopped ha (hs _ hf)

/-- Warnings that were given before are given in both runs. -/
theorem after (before : List Bytes) (h : Hardens wa stops seen x y) :
    Hardens (fun a => before ++ wa a) stops (before ++ seen) x y := by
  cases h with
  | failed => exact failed
  | together ha => exact together (congrArg (before ++ ·) ha)
  | stopped ha hf =>
    exact stopped ((congrArg (before ++ ·) ha).trans (List.append_assoc _ _ _).symm) hf

/-- The strict run succeeds exactly when the lenient one has nothing to warn of. -/
theorem ok_iff (h : Hardens wa stops [] x y) (a : α) : y = .ok a ↔ x = .ok a ∧ wa a = [] := by
  cases h with
  | failed => simp
  | @together b hb =>
    constructor
    · rintro ⟨⟩
      exact ⟨rfl, hb⟩
    · exact fun h => h.1
  | @stopped b w ws f hb hf =>
    constructor
    · rintro ⟨⟩
    · rintro ⟨⟨⟩, ha⟩
      rw [hb] at ha
      cases ha

theorem error_of_warning (h : Hardens wa stops [] x y) {a : α} (hx : x = .ok a) (ha : wa a ≠ []) :
    ∃ f, y = .error f ∧ stops f := by
  cases h with
  | failed => cases hx
  | together hb =>
    cases hx
    exact absurd hb ha
  | stopped hb hf => exact ⟨_, rfl, hf⟩

theorem error_of_error (h : Hardens wa stops seen x y) {f : Fault} (hx : x = .error f) :
    ∃ g, y = .error g := by
  cases h with
  | failed => exact ⟨_, rfl⟩
  | together _ => cases hx
  | stopped _ _ => cases hx

end Hardens

namespace Flow

open Definition (Node Kind Bindings)

/-- The options with another treatment of missing conditions. -/
def Options.setStrict (o : Options) (strict : Bool) : Options := { o with strict := strict }

/-- A strict walk stops at a missing condition. -/
def LacksCondition (f : Fault) : Prop := f.code? = some .missingCondition

/-! ## Steps that give no warning -/

theorem warnings_line {o : Options} {st next : State} {s : Bytes} (h : st.line o s = .ok next) :
    next.warnings = st.warnings := by
  unfold State.line at h
  split at h
  · cases h
    rfl
  · cases h

theorem warnings_dedent {st next : State} (h : st.dedent = .ok next) :
    next.warnings = st.warnings := by
  unfold State.dedent at h
  split at h
  · cases h
  · cases h
    rfl

theorem warnings_runStep {o : Options} {b : Bindings} {n : Node} {st next : State}
    (h : runStep o b n st = .ok next) : next.warnings = st.warnings := by
  unfold runStep at h
  split at h
  · cases h
    rfl
  · obtain ⟨type, -, h⟩ := bind_eq_ok h
    obtain ⟨mid, hline, h⟩ := bind_eq_ok h
    have hmid := warnings_line hline
    cases h
    exact hmid

theorem warnings_runCondition {o : Options} {id : Bytes} {n : Node} {st next : State}
    (h : runCondition o id n st = .ok next) : next.warnings = st.warnings := by
  unfold runCondition at h
  split at h
  · cases h
  · dsimp only at h
    split at h <;> cases h <;> rfl

theorem warnings_openBranch {o : Options} {first : Bool} {st next : State}
    (h : openBranch o first st = .ok next) : next.warnings = st.warnings := by
  unfold openBranch at h
  split at h
  · obtain ⟨mid, hline, h⟩ := bind_eq_ok h
    have hmid := warnings_line hline
    cases h
    exact hmid
  · obtain ⟨up, hup, h⟩ := bind_eq_ok h
    obtain ⟨mid, hline, h⟩ := bind_eq_ok h
    have hmid := (warnings_line hline).trans (warnings_dedent hup)
    cases h
    exact hmid

theorem closeMissing_hardens (o : Options) (id : Bytes) (st : State) :
    Hardens State.warnings LacksCondition st.warnings
      (closeMissing (o.setStrict false) id st) (closeMissing (o.setStrict true) id st) := by
  unfold closeMissing
  cases st.pending with
  | false => exact .together rfl
  | true => exact .stopped rfl rfl

/-! ## The two walks -/

mutual

theorem runNode_hardens (o : Options) (b : Bindings) : ∀ (n : Node) (st : State),
    Hardens State.warnings LacksCondition st.warnings
      (runNode (o.setStrict false) b n st) (runNode (o.setStrict true) b n st)
  | .mk .sequence tag space attrs children, st => runNodes_hardens o b children st
  | .mk .conditional tag space attrs children, st => by
    simp only [runNode]
    cases checkBranches (Node.mk .conditional tag space attrs children).id children with
    | error f => exact .failed
    | ok u =>
      have hbranches := runBranches_hardens o b true children
        { st with pending := false, conditionals := st.conditionals + 1 }
      refine hbranches.bind fun next => Hardens.of_quiet fun last h => ?_
      obtain ⟨mid, hmid, h⟩ := bind_eq_ok h
      exact (warnings_line h).trans (warnings_dedent hmid)
  | .mk .step tag space attrs children, st => by
    simp only [runNode]
    exact Hardens.of_quiet fun next h => warnings_runStep h
  | .mk .branch tag space attrs children, st => .failed
  | .mk .condition tag space attrs children, st => .failed
  | .mk .unknown tag space attrs children, st => .failed

theorem runNodes_hardens (o : Options) (b : Bindings) : ∀ (ns : List Node) (st : State),
    Hardens State.warnings LacksCondition st.warnings
      (runNodes (o.setStrict false) b ns st) (runNodes (o.setStrict true) b ns st)
  | [], _ => .together rfl
  | n :: ns, st => (runNode_hardens o b n st).bind fun next => runNodes_hardens o b ns next

theorem runBranches_hardens (o : Options) (b : Bindings) :
    ∀ (first : Bool) (ns : List Node) (st : State),
    Hardens State.warnings LacksCondition st.warnings
      (runBranches (o.setStrict false) b first ns st) (runBranches (o.setStrict true) b first ns st)
  | _, [], _ => .together rfl
  | first, n :: ns, st =>
    (runBranch_hardens o b first n st).bind fun next => runBranches_hardens o b false ns next

theorem runBranch_hardens (o : Options) (b : Bindings) :
    ∀ (first : Bool) (n : Node) (st : State),
    Hardens State.warnings LacksCondition st.warnings
      (runBranch (o.setStrict false) b first n st) (runBranch (o.setStrict true) b first n st)
  | first, .mk kind tag space attrs children, st => by
    simp only [runBranch]
    refine Hardens.bind (Hardens.of_quiet fun next h => warnings_openBranch h) fun inner => ?_
    refine Hardens.bind (runItems_hardens o b first _ children inner) fun last => ?_
    cases first with
    | false => exact .together rfl
    | true => exact closeMissing_hardens o _ last

theorem runItems_hardens (o : Options) (b : Bindings) :
    ∀ (first : Bool) (id : Bytes) (ns : List Node) (st : State),
    Hardens State.warnings LacksCondition st.warnings
      (runItems (o.setStrict false) b first id ns st) (runItems (o.setStrict true) b first id ns st)
  | first, id, [], st => .together rfl
  | first, id, n :: ns, st => by
    simp only [runItems]
    split
    · split
      · exact .failed
      · exact Hardens.bind (Hardens.of_quiet fun next h => warnings_runCondition h) fun next =>
          runItems_hardens o b first id ns next
    · have hrest : ∀ next : State, Hardens State.warnings LacksCondition next.warnings
          (runNode (o.setStrict false) b n next >>= runItems (o.setStrict false) b first id ns)
          (runNode (o.setStrict true) b n next >>= runItems (o.setStrict true) b first id ns) :=
        fun next => (runNode_hardens o b n next).bind fun last => runItems_hardens o b first id ns last
      split
      · exact (closeMissing_hardens o id st).bind hrest
      · exact hrest st

end

theorem expression_hardens (o : Options) (doc : Definition.Document) :
    Hardens Expression.warnings LacksCondition []
      (expression (o.setStrict false) doc) (expression (o.setStrict true) doc) := by
  unfold expression
  cases doc.root? with
  | none => exact .failed
  | some root =>
    dsimp only
    split
    · exact .failed
    · have hwalk := runNodes_hardens o doc.bindings root.children
        { depth := o.baseDepth, out := o.receiver }
      exact hwalk.bind fun last => .together rfl

end Flow

end Flowsmith
