import Flowsmith.Flow.Expression
import Flowsmith.Proofs.Outcome

/-!
# Lowering without a state

The walk over a definition keeps a depth and a flag for the condition that is still to come. This
module says what the walk does without either: every activity adds a piece that depends on its depth
and on nothing that was written before it. `Expression` serves as the type of such pieces.

* `lowerNode`, `lowerNodes` : the piece of an activity, and of activities in order;
* `lowerSlot` : the piece of a first branch, from the place of its condition on;
* `Closable` : no conditional has to be closed above depth zero, where the walk would fail;
* `runNode_eq`, `runNodes_eq` : the walk adds exactly these pieces, or fails with the same fault;
* `expression_eq` : the expression of a definition is the receiver with the piece of its root.
-/

namespace Flowsmith.Flow

open Definition (Node Kind Bindings)

/-! ## Pieces -/

namespace Expression

def blank : Expression := ⟨[], [], 0, 0⟩

def ofText (s : Bytes) : Expression := ⟨s, [], 0, 0⟩

def append (p q : Expression) : Expression :=
  ⟨p.text ++ q.text, p.warnings ++ q.warnings, p.steps + q.steps, p.conditionals + q.conditionals⟩

instance : Append Expression := ⟨append⟩

@[simp] theorem text_append (p q : Expression) : (p ++ q).text = p.text ++ q.text := rfl

@[simp] theorem warnings_append (p q : Expression) :
    (p ++ q).warnings = p.warnings ++ q.warnings := rfl

@[simp] theorem steps_append (p q : Expression) : (p ++ q).steps = p.steps + q.steps := rfl

@[simp] theorem conditionals_append (p q : Expression) :
    (p ++ q).conditionals = p.conditionals + q.conditionals := rfl

theorem append_assoc (p q r : Expression) : p ++ q ++ r = p ++ (q ++ r) := by
  change append (append p q) r = append p (append q r)
  simp [append, Nat.add_assoc]

theorem ofText_append (s : Bytes) (p : Expression) :
    ofText s ++ p = ⟨s ++ p.text, p.warnings, p.steps, p.conditionals⟩ := by
  change append (ofText s) p = _
  simp [append, ofText]

@[simp] theorem blank_append (p : Expression) : blank ++ p = p := by
  change append blank p = p
  simp [append, blank]

@[simp] theorem append_blank (p : Expression) : p ++ blank = p := by
  change append p blank = p
  simp [append, blank]

end Expression

open Expression (blank ofText)

/-- A piece after a piece; the first fault counts. -/
def join (x y : Except Fault Expression) : Except Fault Expression := do
  let p ← x
  let q ← y
  return p ++ q

theorem join_ok (p q : Expression) : join (.ok p) (.ok q) = .ok (p ++ q) := rfl

theorem join_error (f : Fault) (y : Except Fault Expression) : join (.error f) y = .error f := rfl

theorem join_blank (y : Except Fault Expression) : join (.ok blank) y = y := by
  cases y with
  | error f => rfl
  | ok q => rw [join_ok, Expression.blank_append]

theorem join_assoc (x y z : Except Fault Expression) : join (join x y) z = join x (join y z) := by
  cases x with
  | error f => rfl
  | ok p =>
    cases y with
    | error f => rfl
    | ok q =>
      cases z with
      | error f => rfl
      | ok r =>
        rw [join_ok, join_ok, join_ok, join_ok, Expression.append_assoc]

theorem join_eq_ok {x y : Except Fault Expression} {e : Expression} (h : join x y = .ok e) :
    ∃ p q, x = .ok p ∧ y = .ok q ∧ e = p ++ q := by
  cases x with
  | error f => cases h
  | ok p =>
    cases y with
    | error f => cases h
    | ok q =>
      cases h
      exact ⟨p, q, rfl, rfl, rfl⟩

theorem join_eq_error {x y : Except Fault Expression} {f : Fault} (h : join x y = .error f) :
    x = .error f ∨ y = .error f := by
  cases x with
  | error g => exact Or.inl h
  | ok p =>
    cases y with
    | error g => exact Or.inr h
    | ok q => cases h

/-! ## The pieces of a definition -/

def lineAt (o : Options) (d : Int) (s : Bytes) : Except Fault Expression :=
  match padding? o.indentWidth d with
  | some pad => .ok (ofText ([Bytes.newline] ++ pad ++ s))
  | none => .error (.aborted .negativeIndent)

def lowerStep (o : Options) (b : Bindings) (d : Int) (n : Node) : Except Fault Expression :=
  if o.faultHandlers.contains n.tag then .ok blank
  else do
    let type ← stepType b n
    let p ← lineAt o d (stepCall type)
    return { p with steps := 1 }

/-- The warning about a condition that did not come. -/
def missingWarning (id : Bytes) : Bytes :=
  ("branch " : Bytes) ++ id ++ (" has no condition, emitted an empty .If(() => )" : Bytes)

/-- What closes the place of a condition that did not come. -/
def lowerMissing (o : Options) (id : Bytes) : Except Fault Expression :=
  if o.strict then
    .error (.new .missingCondition
      (("branch " : Bytes) ++ id ++ (" has no condition" : Bytes)) [("element", .text id)])
  else .ok ⟨(")" : Bytes), [missingWarning id], 0, 0⟩

/-- The fault that a condition stands outside of a branch. -/
def strayCondition (n : Node) : Fault :=
  misplaced n.id (("condition " : Bytes) ++ n.id ++ (" outside of a branch" : Bytes))

/-- The fault that the branch `id` has a condition where it can have none: the place of the
condition of a first branch is filled, a second branch has no place for one. -/
def surplusCondition (first : Bool) (id : Bytes) : Fault :=
  if first then
    misplaced id (("condition of branch " : Bytes) ++ id ++ (" is already set" : Bytes))
  else misplaced id (("else branch " : Bytes) ++ id ++ (" carries a condition" : Bytes))

/-- The name that a condition gives, empty when it gives none. -/
def nameOf (o : Options) (n : Node) : Bytes := (conditionName? o.conditionAttribute n).getD []

mutual

def lowerNode (o : Options) (b : Bindings) (d : Int) : Node → Except Fault Expression
  | .mk kind tag space attrs children =>
    let n := Node.mk kind tag space attrs children
    match kind with
    | .sequence => lowerNodes o b d strayCondition children
    | .conditional => do
      checkBranches n.id children
      let p ← join (lowerBranches o b d true children) (lineAt o d endMark)
      return { p with conditionals := p.conditionals + 1 }
    | .step => lowerStep o b d n
    | .branch =>
      .error (misplaced n.id (("branch " : Bytes) ++ n.id ++ (" outside of a conditional" : Bytes)))
    | .condition => .error (strayCondition n)
    | .unknown =>
      .error (.new .internal (("unhandled node kind " : Bytes) ++ Bytes.ofString kind.name))

/-- The piece of activities in order; `stray` is the fault that a condition among them is. -/
def lowerNodes (o : Options) (b : Bindings) (d : Int) (stray : Node → Fault) :
    List Node → Except Fault Expression
  | [] => .ok blank
  | n :: ns =>
    join (if n.kind = .condition then .error (stray n) else lowerNode o b d n)
      (lowerNodes o b d stray ns)

/-- The piece of the branches of a conditional at a depth. -/
def lowerBranches (o : Options) (b : Bindings) (d : Int) (first : Bool) :
    List Node → Except Fault Expression
  | [] => .ok blank
  | n :: ns => join (lowerBranch o b d first n) (lowerBranches o b d false ns)

def lowerBranch (o : Options) (b : Bindings) (d : Int) (first : Bool) :
    Node → Except Fault Expression
  | .mk kind tag space attrs children =>
    let id := (Node.mk kind tag space attrs children).id
    if first then join (lineAt o d ifMark) (lowerSlot o b (d + 1) id children)
    else
      join (lineAt o d elseMark)
        (lowerNodes o b (d + 1) (fun _ => surplusCondition false id) children)

/-- The piece of what is in the first branch `id`, as long as its condition is still to come. -/
def lowerSlot (o : Options) (b : Bindings) (d : Int) (id : Bytes) :
    List Node → Except Fault Expression
  | [] => lowerMissing o id
  | n :: ns =>
    if n.kind = .condition then
      if (nameOf o n).isEmpty then lowerSlot o b d id ns
      else
        join (.ok (ofText (nameOf o n ++ ("())" : Bytes))))
          (lowerNodes o b d (fun _ => surplusCondition true id) ns)
    else
      join (if n.kind = .conditional then .ok blank else lowerMissing o id)
        (join (lowerNode o b d n) (lowerNodes o b d (fun _ => surplusCondition true id) ns))

end

/-! ## The top

A conditional is closed one level above its branches, and there is no level above zero. -/

mutual

/-- No conditional that is reached from an activity has its branches at depth zero. -/
def Closable (d : Int) : Node → Prop
  | .mk kind _ _ _ children =>
    match kind with
    | .sequence => ClosableAll d children
    | .conditional => d + 1 ≠ 0 ∧ ClosableAll d children
    | .branch => ClosableAll (d + 1) children
    | _ => True

/-- No conditional that is reached from a list has its branches at depth zero. -/
def ClosableAll (d : Int) : List Node → Prop
  | [] => True
  | n :: ns => Closable d n ∧ ClosableAll d ns

end

mutual

theorem closable_of_nonneg : ∀ (n : Node) {d : Int}, 0 ≤ d → Closable d n
  | .mk .sequence _ _ _ children, _, hd => closableAll_of_nonneg children hd
  | .mk .conditional _ _ _ children, _, hd => ⟨by omega, closableAll_of_nonneg children hd⟩
  | .mk .branch _ _ _ children, d, hd =>
    closableAll_of_nonneg children (show 0 ≤ d + 1 by omega)
  | .mk .step _ _ _ _, _, _ => trivial
  | .mk .condition _ _ _ _, _, _ => trivial
  | .mk .unknown _ _ _ _, _, _ => trivial

/-- A walk that begins at no negative depth stays below the top. -/
theorem closableAll_of_nonneg : ∀ (ns : List Node) {d : Int}, 0 ≤ d → ClosableAll d ns
  | [], _, _ => trivial
  | n :: ns, _, hd => ⟨closable_of_nonneg n hd, closableAll_of_nonneg ns hd⟩

end

/-! ## The walk adds these pieces -/

namespace State

/-- The state after a piece; no condition is to come. -/
def add (st : State) (p : Expression) : State :=
  { st with
    pending := false, out := st.out ++ p.text, warnings := st.warnings ++ p.warnings
    steps := st.steps + p.steps, conditionals := st.conditionals + p.conditionals }

@[simp] theorem depth_add (st : State) (p : Expression) : (st.add p).depth = st.depth := rfl

@[simp] theorem pending_add (st : State) (p : Expression) : (st.add p).pending = false := rfl

theorem add_add (st : State) (p q : Expression) : (st.add p).add q = st.add (p ++ q) := by
  simp [add, Nat.add_assoc]

theorem add_blank {st : State} (h : st.pending = false) : st.add blank = st := by
  cases st
  simp_all [add, blank]

theorem add_ofText {st : State} (h : st.pending = false) (s : Bytes) :
    st.add (ofText s) = st.write s := by
  cases st
  simp_all [add, ofText, write]

end State

/-- The outcome of the walk from a state that adds a piece. -/
def landing (st : State) (x : Except Fault Expression) : Except Fault State := x.map st.add

theorem landing_ok (st : State) (p : Expression) : landing st (.ok p) = .ok (st.add p) := rfl

theorem landing_error (st : State) (f : Fault) : landing st (.error f) = .error f := rfl

/-- A walk that goes on from where a piece has led adds the two pieces one after the other. -/
theorem landing_bind {st : State} {x y : Except Fault Expression} {k : State → Except Fault State}
    (h : ∀ p, x = .ok p → k (st.add p) = landing (st.add p) y) :
    (landing st x >>= k) = landing st (join x y) := by
  cases x with
  | error f => rfl
  | ok p =>
    change k (st.add p) = _
    rw [h p rfl]
    cases y with
    | error f => rfl
    | ok q => rw [join_ok, landing_ok, landing_ok, State.add_add]

theorem line_eq {st : State} (o : Options) (s : Bytes) (h : st.pending = false) :
    st.line o s = landing st (lineAt o st.depth s) := by
  unfold State.line lineAt
  cases padding? o.indentWidth st.depth with
  | none => rfl
  | some pad => rw [landing_ok, State.add_ofText h]

theorem runStep_eq {st : State} (o : Options) (b : Bindings) (n : Node) (h : st.pending = false) :
    runStep o b n st = landing st (lowerStep o b st.depth n) := by
  unfold runStep lowerStep
  split
  · rw [landing_ok, State.add_blank h]
  · cases stepType b n with
    | error f => rfl
    | ok type =>
      change (st.line o (stepCall type) >>= _) = landing st (lineAt o st.depth (stepCall type) >>= _)
      unfold State.line lineAt
      cases padding? o.indentWidth st.depth with
      | none => rfl
      | some pad =>
        cases st
        simp_all [landing, Except.map, bind, Except.bind, pure, Except.pure, State.write, State.add,
          ofText]

theorem closeMissing_of_not_pending {st : State} (o : Options) (id : Bytes) (h : st.pending = false) :
    closeMissing o id st = .ok st := by
  simp [closeMissing, h]

theorem closeMissing_of_pending {st : State} (o : Options) (id : Bytes) (h : st.pending = true) :
    closeMissing o id st = landing st (lowerMissing o id) := by
  unfold closeMissing lowerMissing
  rw [if_neg (by simp [h])]
  split
  · rfl
  · simp [landing, Except.map, State.add, State.write, missingWarning]

/-- One level down and up again is where one was, unless that is above the top. -/
theorem dedent_indent {st : State} (h : st.depth + 1 ≠ 0) : st.indent.dedent = .ok st := by
  unfold State.dedent State.indent
  rw [if_neg h]
  simp

theorem add_indent (st : State) (p : Expression) : st.indent.add p = (st.add p).indent := rfl

theorem openBranch_first {st : State} (o : Options) (h : st.pending = false) :
    openBranch o true st
      = (landing st.indent (lineAt o st.depth ifMark)).map fun s => { s with pending := true } := by
  change (st.line o ifMark >>= _) = _
  unfold State.line lineAt
  cases padding? o.indentWidth st.depth with
  | none => rfl
  | some pad =>
    cases st
    simp_all [landing, Except.map, bind, Except.bind, pure, Except.pure, State.write, State.add,
      State.indent, ofText]

theorem openBranch_second {st : State} (o : Options) (hd : st.depth + 1 ≠ 0)
    (h : st.pending = false) :
    openBranch o false st.indent = landing st.indent (lineAt o st.depth elseMark) := by
  change (st.indent.dedent >>= _) = _
  rw [dedent_indent hd]
  change (st.line o elseMark >>= _) = _
  rw [line_eq o elseMark h]
  cases lineAt o st.depth elseMark with
  | error f => rfl
  | ok p => rfl

theorem checkBranches_ok {id : Bytes} {cs : List Node} (h : checkBranches id cs = .ok ()) :
    (∀ c ∈ cs, c.kind = .branch) ∧ (cs.length = 1 ∨ cs.length = 2) := by
  unfold checkBranches at h
  split at h
  · cases h
  · rename_i hnone
    split at h
    · cases h
    · refine ⟨fun c hc => ?_, by omega⟩
      simpa using List.find?_eq_none.1 hnone c hc

theorem runItems_activity {n : Node} (o : Options) (b : Bindings) (first : Bool) (id : Bytes)
    (ns : List Node) (st : State) (hk : n.kind ≠ .condition) :
    runItems o b first id (n :: ns) st
      = ((if first ∧ n.kind ≠ .conditional then closeMissing o id st else .ok st) >>= fun s =>
          runNode o b n s >>= runItems o b first id ns) := by
  rw [runItems, if_neg hk]
  split <;> rfl

/-! What follows is one induction over the tree. A piece is added from a state in which no condition
is to come, with two exceptions: a conditional takes the place of a condition that is to come, and
the first branch of a conditional begins with such a place. -/

mutual

theorem runNode_eq (o : Options) (b : Bindings) : ∀ (n : Node) (st : State), Closable st.depth n →
    (st.pending = false ∨ n.kind = .conditional) →
    runNode o b n st = landing st (lowerNode o b st.depth n)
  | .mk .sequence tag space attrs children, st, hd, hp => by
    have hp : st.pending = false := by simpa [Node.kind] using hp
    simp only [runNode, lowerNode]
    exact runNodes_eq o b children st hd hp
  | .mk .conditional tag space attrs children, st, hd, hp => by
    simp only [runNode, lowerNode]
    cases hc : checkBranches (Node.mk .conditional tag space attrs children).id children with
    | error f => rfl
    | ok u =>
      have hne : children ≠ [] := by
        rintro rfl
        simpa using (checkBranches_ok hc).2
      obtain ⟨hup, hd⟩ : st.depth + 1 ≠ 0 ∧ ClosableAll st.depth children := hd
      let start : State := { st with pending := false, conditionals := st.conditionals + 1 }
      have hb : runBranches o b true children start
          = landing start.indent (lowerBranches o b st.depth true children) :=
        runBranches_first_eq o b children start hne hup (checkBranches_ok hc).1 hd rfl
      change (runBranches o b true children start >>= _) = _
      rw [hb]
      cases lowerBranches o b st.depth true children with
      | error f => rfl
      | ok p =>
        change ((start.indent.add p).dedent >>= _) = _
        rw [add_indent, show (start.add p).indent.dedent = _ from dedent_indent hup]
        change (start.add p).line o endMark = _
        rw [line_eq o endMark (by rfl), State.depth_add]
        change landing (start.add p) (lineAt o st.depth endMark) = _
        cases lineAt o st.depth endMark with
        | error f => rfl
        | ok q =>
          simp only [landing, Except.map, join, bind, Except.bind, pure, Except.pure, State.add,
            start, Expression.text_append, Expression.warnings_append, Expression.steps_append,
            Expression.conditionals_append, List.append_assoc, Except.ok.injEq, State.mk.injEq,
            true_and]
          omega
  | .mk .step tag space attrs children, st, hd, hp => by
    have hp : st.pending = false := by simpa [Node.kind] using hp
    simp only [runNode, lowerNode]
    exact runStep_eq o b _ hp
  | .mk .branch tag space attrs children, st, hd, hp => by
    simp only [runNode, lowerNode, landing_error]
  | .mk .condition tag space attrs children, st, hd, hp => by
    simp only [runNode, lowerNode, landing_error, strayCondition]
  | .mk .unknown tag space attrs children, st, hd, hp => by
    simp only [runNode, lowerNode, landing_error]

theorem runNodes_eq (o : Options) (b : Bindings) : ∀ (ns : List Node) (st : State),
    ClosableAll st.depth ns → st.pending = false →
    runNodes o b ns st = landing st (lowerNodes o b st.depth strayCondition ns)
  | [], st, hd, hp => by
    rw [runNodes, lowerNodes, landing_ok, State.add_blank hp]
  | n :: ns, st, hd, hp => by
    rw [runNodes, lowerNodes, runNode_eq o b n st hd.1 (Or.inl hp)]
    have hn : (if n.kind = .condition then .error (strayCondition n) else lowerNode o b st.depth n)
        = lowerNode o b st.depth n := by
      split
      · rename_i h
        obtain ⟨kind, tag, space, attrs, children⟩ := n
        simp only [Node.kind] at h
        subst h
        rfl
      · rfl
    rw [hn]
    exact landing_bind fun p _ => runNodes_eq o b ns (st.add p) hd.2 rfl

theorem runBranches_first_eq (o : Options) (b : Bindings) : ∀ (ns : List Node) (st : State),
    ns ≠ [] → st.depth + 1 ≠ 0 → (∀ n ∈ ns, n.kind = .branch) → ClosableAll st.depth ns →
    st.pending = false →
    runBranches o b true ns st = landing st.indent (lowerBranches o b st.depth true ns)
  | [], st, hne, hup, hk, hd, hp => absurd rfl hne
  | n :: ns, st, hne, hup, hk, hd, hp => by
    rw [runBranches, lowerBranches,
      runBranch_first_eq o b n st (hk n List.mem_cons_self) hd.1 hp]
    refine landing_bind fun p _ => ?_
    rw [add_indent]
    exact runBranches_second_eq o b ns (st.add p) hup
      (fun m hm => hk m (List.mem_cons_of_mem _ hm)) hd.2 rfl

theorem runBranches_second_eq (o : Options) (b : Bindings) : ∀ (ns : List Node) (st : State),
    st.depth + 1 ≠ 0 → (∀ n ∈ ns, n.kind = .branch) → ClosableAll st.depth ns →
    st.pending = false →
    runBranches o b false ns st.indent = landing st.indent (lowerBranches o b st.depth false ns)
  | [], st, hup, hk, hd, hp => by
    rw [runBranches, lowerBranches, landing_ok, add_indent, State.add_blank hp]
  | n :: ns, st, hup, hk, hd, hp => by
    rw [runBranches, lowerBranches,
      runBranch_second_eq o b n st hup (hk n List.mem_cons_self) hd.1 hp]
    refine landing_bind fun p _ => ?_
    rw [add_indent]
    exact runBranches_second_eq o b ns (st.add p) hup
      (fun m hm => hk m (List.mem_cons_of_mem _ hm)) hd.2 rfl

theorem runBranch_first_eq (o : Options) (b : Bindings) : ∀ (n : Node) (st : State),
    n.kind = .branch → Closable st.depth n → st.pending = false →
    runBranch o b true n st = landing st.indent (lowerBranch o b st.depth true n)
  | .mk kind tag space attrs children, st, hk, hd, hp => by
    obtain rfl : kind = .branch := hk
    simp only [runBranch, lowerBranch, openBranch_first o hp, if_true]
    cases lineAt o st.depth ifMark with
    | error f => rfl
    | ok p =>
      change (runItems o b true _ children { st.indent.add p with pending := true } >>= _) = _
      rw [runItems_slot_eq o b _ children _ (by exact hd) rfl]
      change landing { st.indent.add p with pending := true } (lowerSlot o b (st.depth + 1) _ children) = _
      cases lowerSlot o b (st.depth + 1) _ children with
      | error f => rfl
      | ok q => rw [join_ok, landing_ok, landing_ok, ← State.add_add]; rfl

theorem runBranch_second_eq (o : Options) (b : Bindings) : ∀ (n : Node) (st : State),
    st.depth + 1 ≠ 0 → n.kind = .branch → Closable st.depth n → st.pending = false →
    runBranch o b false n st.indent = landing st.indent (lowerBranch o b st.depth false n)
  | .mk kind tag space attrs children, st, hup, hk, hd, hp => by
    obtain rfl : kind = .branch := hk
    simp only [runBranch, lowerBranch, openBranch_second o hup hp, Bool.false_eq_true, if_false]
    refine landing_bind fun p _ => ?_
    rw [runItems_eq o b false _ children _ (by exact hd) rfl]
    change (landing (st.indent.add p) (lowerNodes o b (st.depth + 1) _ children) >>= Except.ok) = _
    cases lowerNodes o b (st.depth + 1) _ children with
    | error f => rfl
    | ok q => rfl

theorem runItems_eq (o : Options) (b : Bindings) (first : Bool) (id : Bytes) :
    ∀ (ns : List Node) (st : State), ClosableAll st.depth ns → st.pending = false →
    runItems o b first id ns st
      = landing st (lowerNodes o b st.depth (fun _ => surplusCondition first id) ns)
  | [], st, hd, hp => by
    rw [runItems, lowerNodes, landing_ok, State.add_blank hp]
  | n :: ns, st, hd, hp => by
    rw [lowerNodes]
    by_cases hk : n.kind = .condition
    · rw [runItems, if_pos hk, if_pos hk, join_error, landing_error]
      cases first with
      | false => rfl
      | true => simp [runCondition, hp, surplusCondition, bind, Except.bind]
    · rw [runItems_activity o b first id ns st hk, if_neg hk]
      have hclose : (if first ∧ n.kind ≠ .conditional then closeMissing o id st else .ok st)
          = .ok st := by
        rw [closeMissing_of_not_pending o id hp, ite_self]
      rw [hclose]
      change (runNode o b n st >>= _) = _
      rw [runNode_eq o b n st hd.1 (Or.inl hp)]
      exact landing_bind fun p _ => runItems_eq o b first id ns (st.add p) hd.2 rfl

theorem runItems_slot_eq (o : Options) (b : Bindings) (id : Bytes) : ∀ (ns : List Node) (st : State),
    ClosableAll st.depth ns → st.pending = true →
    (runItems o b true id ns st >>= closeMissing o id)
      = landing st (lowerSlot o b st.depth id ns)
  | [], st, hd, hp => by
    rw [runItems, lowerSlot]
    exact closeMissing_of_pending o id hp
  | n :: ns, st, hd, hp => by
    -- once the place is filled, the rest of the branch is walked as in a sequence
    have rest : ∀ p : Expression, (runItems o b true id ns (st.add p) >>= closeMissing o id)
        = landing (st.add p) (lowerNodes o b st.depth (fun _ => surplusCondition true id) ns) := by
      intro p
      rw [runItems_eq o b true id ns (st.add p) hd.2 rfl]
      cases hq : lowerNodes o b st.depth (fun _ => surplusCondition true id) ns with
      | error f => simp only [State.depth_add, hq]; rfl
      | ok q =>
        simp only [State.depth_add, hq, landing_ok]
        exact closeMissing_of_not_pending o id (State.pending_add _ q)
    rw [lowerSlot]
    by_cases hk : n.kind = .condition
    · rw [runItems, if_pos hk, if_pos hk]
      simp only [Bool.not_true, Bool.false_eq_true, if_false, runCondition, hp]
      change ((if (nameOf o n).isEmpty then _ else _) >>= _) >>= _ = _
      by_cases hname : (nameOf o n).isEmpty
      · rw [if_pos hname, if_pos hname]
        exact runItems_slot_eq o b id ns st hd.2 hp
      · rw [if_neg hname, if_neg hname]
        refine Eq.trans ?_ ((rest (ofText (nameOf o n ++ ("())" : Bytes)))).trans ?_)
        · change (runItems o b true id ns _ >>= _) = _
          congr 2
          cases st
          simp [State.add, ofText, State.write, nameOf]
        · rw [← landing_bind (k := fun s => landing s _) fun p _ => rfl]
          rfl
    · rw [runItems_activity o b true id ns st hk, if_neg hk]
      by_cases hc : n.kind = .conditional
      · rw [if_neg (by simp [hc]), if_pos hc, join_blank]
        change (runNode o b n st >>= _) >>= _ = _
        rw [runNode_eq o b n st hd.1 (Or.inr hc), bind_assoc]
        exact landing_bind fun p _ => rest p
      · rw [if_pos ⟨rfl, hc⟩, if_neg hc, closeMissing_of_pending o id hp, bind_assoc]
        refine landing_bind fun p _ => ?_
        rw [runNode_eq o b n (st.add p) hd.1 (Or.inl rfl), bind_assoc]
        refine landing_bind fun q _ => ?_
        rw [State.add_add]
        exact rest (p ++ q)

end

theorem expression_eq_of_closable (o : Options) (b : Bindings) (root : Node)
    (hd : ClosableAll o.baseDepth root.children) (hk : root.kind = .sequence) :
    expression o ⟨some root, b⟩
      = join (.ok (ofText o.receiver)) (lowerNodes o b o.baseDepth strayCondition root.children) := by
  unfold expression
  simp only [hk, ne_eq, not_true_eq_false, if_false]
  rw [runNodes_eq o b root.children _ hd rfl]
  cases lowerNodes o b o.baseDepth strayCondition root.children with
  | error f => rfl
  | ok p =>
    rw [join_ok, Expression.ofText_append]
    simp [landing, Except.map, bind, Except.bind, pure, Except.pure, State.add]

theorem expression_eq (o : Options) (b : Bindings) (root : Node) (hd : 0 ≤ o.baseDepth)
    (hk : root.kind = .sequence) :
    expression o ⟨some root, b⟩
      = join (.ok (ofText o.receiver)) (lowerNodes o b o.baseDepth strayCondition root.children) :=
  expression_eq_of_closable o b root (closableAll_of_nonneg root.children hd) hk

end Flowsmith.Flow
