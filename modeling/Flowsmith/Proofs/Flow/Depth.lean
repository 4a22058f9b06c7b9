import Flowsmith.Proofs.Flow.Grammar
import Flowsmith.Proofs.Xml.Forest
import Mathlib.Logic.Relation

/-!
# The depth of the walk

The walk over a definition goes one level deeper into a branch and comes up again behind it. What it
is made of is named here stretch by stretch, so that one can say where it is at any point.

* `Stretch`, `Stretch.run` : a stretch of the walk, and how it ends;
* `Calls` : a stretch comes to another one; `Stretch.depth_run` : how the depth changes over a stretch;
* `Between` : a stretch lies between two depths, which all that it calls does too (`Calls.between`);
* `height`, `between_of_calls` : how deep a definition is nested, and the depths of the walk over it.
-/

namespace Flowsmith.Flow

open Definition (Node Kind Bindings)

/-! ## Stretches -/

inductive Stretch where
  | node (n : Node)
  | nodes (ns : List Node)
  | branches (first : Bool) (ns : List Node)
  | branch (first : Bool) (n : Node)
  | items (first : Bool) (id : Bytes) (ns : List Node)
  /-- The opening of a branch. -/
  | enter (first : Bool)
  /-- One level up. -/
  | leave

namespace Stretch

def run (o : Options) (b : Bindings) : Stretch → State → Except Fault State
  | .node n, st => runNode o b n st
  | .nodes ns, st => runNodes o b ns st
  | .branches first ns, st => runBranches o b first ns st
  | .branch first n, st => runBranch o b first n st
  | .items first id ns, st => runItems o b first id ns st
  | .enter first, st => openBranch o first st
  | .leave, st => st.dedent

/-- How much deeper the walk is behind a stretch than in front of it: a first branch is left open until
the conditional is closed. -/
def rise : Stretch → Int
  | .branches true (_ :: _) => 1
  | .branch true _ => 1
  | .enter true => 1
  | .leave => -1
  | _ => 0

/-- How far above the lowest depth of a stretch the walk is in front of it. -/
def floor : Stretch → Int
  | .branches false _ => 1
  | .branch false _ => 1
  | .enter false => 1
  | .leave => 1
  | _ => 0

end Stretch

/-- Walking a stretch from a state, the walk comes to another stretch with another state. -/
inductive Calls (o : Options) (b : Bindings) : Stretch × State → Stretch × State → Prop where
  | sequence {tag space attrs children} {st : State} :
    Calls o b (.node (.mk .sequence tag space attrs children), st) (.nodes children, st)
  | conditional {tag space attrs children} {st : State} :
    checkBranches (Node.mk .conditional tag space attrs children).id children = .ok () →
    Calls o b (.node (.mk .conditional tag space attrs children), st)
      (.branches true children, { st with pending := false, conditionals := st.conditionals + 1 })
  | close {tag space attrs children} {st st' : State} :
    checkBranches (Node.mk .conditional tag space attrs children).id children = .ok () →
    runBranches o b true children
      { st with pending := false, conditionals := st.conditionals + 1 } = .ok st' →
    Calls o b (.node (.mk .conditional tag space attrs children), st) (.leave, st')
  | head {n ns} {st : State} : Calls o b (.nodes (n :: ns), st) (.node n, st)
  | tail {n ns} {st st' : State} : runNode o b n st = .ok st' →
    Calls o b (.nodes (n :: ns), st) (.nodes ns, st')
  | branch {first n ns} {st : State} :
    Calls o b (.branches first (n :: ns), st) (.branch first n, st)
  | branches {first n ns} {st st' : State} : runBranch o b first n st = .ok st' →
    Calls o b (.branches first (n :: ns), st) (.branches false ns, st')
  | enter {first n} {st : State} : Calls o b (.branch first n, st) (.enter first, st)
  | leave {st : State} : Calls o b (.enter false, st) (.leave, st)
  | inside {first kind tag space attrs children} {st st' : State} :
    openBranch o first st = .ok st' →
    Calls o b (.branch first (.mk kind tag space attrs children), st)
      (.items first (Node.mk kind tag space attrs children).id children, st')
  | condition {id ns} {n : Node} {st st' : State} :
    n.kind = .condition → runCondition o id n st = .ok st' →
    Calls o b (.items true id (n :: ns), st) (.items true id ns, st')
  | item {id ns} {first : Bool} {n : Node} {st st' : State} : n.kind ≠ .condition →
    (if first ∧ n.kind ≠ .conditional then closeMissing o id st else .ok st) = .ok st' →
    Calls o b (.items first id (n :: ns), st) (.node n, st')
  | items {id ns} {first : Bool} {n : Node} {st st₁ st' : State} : n.kind ≠ .condition →
    (if first ∧ n.kind ≠ .conditional then closeMissing o id st else .ok st) = .ok st₁ →
    runNode o b n st₁ = .ok st' →
    Calls o b (.items first id (n :: ns), st) (.items first id ns, st')

/-! ## How the depth changes -/

variable {o : Options} {b : Bindings} {st st' : State}

theorem State.depth_line {s : Bytes} (h : st.line o s = .ok st') : st'.depth = st.depth := by
  unfold State.line at h
  split at h
  · cases h
    rfl
  · cases h

theorem State.depth_dedent (h : st.dedent = .ok st') : st'.depth = st.depth - 1 := by
  unfold State.dedent at h
  split at h
  · cases h
  · cases h
    rfl

theorem depth_runStep {n : Node} (h : runStep o b n st = .ok st') : st'.depth = st.depth := by
  unfold runStep at h
  split at h
  · cases h
    rfl
  · obtain ⟨type, -, h⟩ := bind_eq_ok h
    obtain ⟨st₁, hline, h⟩ := bind_eq_ok h
    cases h
    show st₁.depth = st.depth
    exact State.depth_line hline

theorem depth_runCondition {id : Bytes} {n : Node} (h : runCondition o id n st = .ok st') :
    st'.depth = st.depth := by
  unfold runCondition at h
  split at h
  · cases h
  · dsimp only at h
    split at h <;> cases h <;> rfl

theorem depth_closeMissing {id : Bytes} (h : closeMissing o id st = .ok st') :
    st'.depth = st.depth := by
  unfold closeMissing at h
  split at h
  · cases h
    rfl
  · split at h
    · cases h
    · cases h
      rfl

/-- What stands in front of an item of a branch keeps the depth. -/
theorem depth_beforeItem {id : Bytes} {c : Prop} [Decidable c]
    (h : (if c then closeMissing o id st else .ok st) = .ok st') : st'.depth = st.depth := by
  split at h
  · exact depth_closeMissing h
  · cases h
    rfl

theorem depth_openBranch {first : Bool} (h : openBranch o first st = .ok st') :
    st'.depth = st.depth + (Stretch.enter first).rise := by
  unfold openBranch at h
  cases first with
  | true =>
    obtain ⟨st₁, hline, h⟩ := bind_eq_ok h
    cases h
    show st₁.depth + 1 = st.depth + 1
    rw [State.depth_line hline]
  | false =>
    obtain ⟨st₁, hdedent, h⟩ := bind_eq_ok h
    obtain ⟨st₂, hline, h⟩ := bind_eq_ok h
    cases h
    show st₂.depth + 1 = st.depth + 0
    rw [State.depth_line hline, State.depth_dedent hdedent]
    omega

/-- A conditional that is walked: its branches, one level up, and the mark that closes it. -/
theorem runNode_conditional {tag space : Bytes} {attrs : List (Bytes × Bytes)} {children : List Node}
    (h : runNode o b (.mk .conditional tag space attrs children) st = .ok st') :
    ∃ st₁ st₂, checkBranches (Node.mk .conditional tag space attrs children).id children = .ok () ∧
      runBranches o b true children
        { st with pending := false, conditionals := st.conditionals + 1 } = .ok st₁ ∧
      st₁.dedent = .ok st₂ ∧ st₂.line o endMark = .ok st' := by
  simp only [runNode] at h
  obtain ⟨u, hcheck, h⟩ := bind_eq_ok h
  obtain ⟨st₁, hbranches, h⟩ := bind_eq_ok h
  obtain ⟨st₂, hdedent, hline⟩ := bind_eq_ok h
  exact ⟨st₁, st₂, hcheck, hbranches, hdedent, hline⟩

/-! The depth changes over each stretch by what its form says: one induction over the tree. -/

mutual

theorem depth_runNode (o : Options) (b : Bindings) : ∀ (n : Node) (st st' : State),
    runNode o b n st = .ok st' → st'.depth = st.depth
  | .mk .sequence tag space attrs children, st, st', h => by
    simp only [runNode] at h
    exact depth_runNodes o b children st st' h
  | .mk .conditional tag space attrs children, st, st', h => by
    obtain ⟨st₁, st₂, hcheck, hbranches, hdedent, hline⟩ := runNode_conditional h
    have hopen := depth_runBranches o b true children _ st₁ hbranches
    cases children with
    | nil => simpa using (checkBranches_ok hcheck).2
    | cons c cs =>
      rw [State.depth_line hline, State.depth_dedent hdedent, hopen]
      show st.depth + 1 - 1 = st.depth
      omega
  | .mk .step tag space attrs children, st, st', h => by
    simp only [runNode] at h
    exact depth_runStep h
  | .mk .branch tag space attrs children, st, st', h => by
    simp only [runNode] at h
    cases h
  | .mk .condition tag space attrs children, st, st', h => by
    simp only [runNode] at h
    cases h
  | .mk .unknown tag space attrs children, st, st', h => by
    simp only [runNode] at h
    cases h

theorem depth_runNodes (o : Options) (b : Bindings) : ∀ (ns : List Node) (st st' : State),
    runNodes o b ns st = .ok st' → st'.depth = st.depth
  | [], st, st', h => by
    rw [runNodes] at h
    cases h
    rfl
  | n :: ns, st, st', h => by
    rw [runNodes] at h
    obtain ⟨st₁, hn, hns⟩ := bind_eq_ok h
    rw [depth_runNodes o b ns st₁ st' hns, depth_runNode o b n st st₁ hn]

theorem depth_runBranches (o : Options) (b : Bindings) : ∀ (first : Bool) (ns : List Node)
    (st st' : State), runBranches o b first ns st = .ok st' →
    st'.depth = st.depth + (Stretch.branches first ns).rise
  | first, [], st, st', h => by
    rw [runBranches] at h
    cases h
    cases first <;> exact (Int.add_zero _).symm
  | first, n :: ns, st, st', h => by
    rw [runBranches] at h
    obtain ⟨st₁, hn, hns⟩ := bind_eq_ok h
    rw [depth_runBranches o b false ns st₁ st' hns, depth_runBranch o b first n st st₁ hn]
    cases first <;> exact Int.add_zero _

theorem depth_runBranch (o : Options) (b : Bindings) : ∀ (first : Bool) (n : Node) (st st' : State),
    runBranch o b first n st = .ok st' → st'.depth = st.depth + (Stretch.branch first n).rise
  | first, .mk kind tag space attrs children, st, st', h => by
    simp only [runBranch] at h
    obtain ⟨st₁, hopen, h⟩ := bind_eq_ok h
    obtain ⟨st₂, hitems, h⟩ := bind_eq_ok h
    have hlast : st'.depth = st₂.depth := by
      split at h
      · exact depth_closeMissing h
      · cases h
        rfl
    rw [hlast, depth_runItems o b first _ children st₁ st₂ hitems, depth_openBranch hopen]
    cases first <;> rfl

theorem depth_runItems (o : Options) (b : Bindings) : ∀ (first : Bool) (id : Bytes) (ns : List Node)
    (st st' : State), runItems o b first id ns st = .ok st' → st'.depth = st.depth
  | first, id, [], st, st', h => by
    rw [runItems] at h
    cases h
    rfl
  | first, id, n :: ns, st, st', h => by
    by_cases hk : n.kind = .condition
    · rw [runItems, if_pos hk] at h
      split at h
      · cases h
      · obtain ⟨st₁, hcondition, hns⟩ := bind_eq_ok h
        rw [depth_runItems o b first id ns st₁ st' hns, depth_runCondition hcondition]
    · rw [runItems_activity o b first id ns st hk] at h
      obtain ⟨st₁, hbefore, h⟩ := bind_eq_ok h
      obtain ⟨st₂, hn, hns⟩ := bind_eq_ok h
      rw [depth_runItems o b first id ns st₂ st' hns, depth_runNode o b n st₁ st₂ hn,
        depth_beforeItem hbefore]

end

/-- Over a stretch that is walked to its end the depth changes by the rise of the stretch. -/
theorem Stretch.depth_run {t : Stretch} (h : t.run o b st = .ok st') :
    st'.depth = st.depth + t.rise := by
  cases t with
  | node n => exact (depth_runNode o b n st st' h).trans (Int.add_zero _).symm
  | nodes ns => exact (depth_runNodes o b ns st st' h).trans (Int.add_zero _).symm
  | branches first ns => exact depth_runBranches o b first ns st st' h
  | branch first n => exact depth_runBranch o b first n st st' h
  | items first id ns => exact (depth_runItems o b first id ns st st' h).trans (Int.add_zero _).symm
  | enter first => exact depth_openBranch h
  | leave => exact State.depth_dedent h

/-! ## How deep the walk goes -/

mutual

/-- How many activities of a definition lie inside one another. -/
def height : Node → Nat
  | .mk _ _ _ _ children => heights children + 1

/-- How many activities of a list lie inside one another. -/
def heights : List Node → Nat
  | [] => 0
  | n :: ns => max (height n) (heights ns)

end

theorem height_pos (n : Node) : 1 ≤ height n := by
  obtain ⟨kind, tag, space, attrs, children⟩ := n
  unfold height
  omega

theorem heights_append (ns ms : List Node) : heights (ns ++ ms) = max (heights ns) (heights ms) := by
  induction ns with
  | nil => exact (Nat.zero_max _).symm
  | cons n ns ih =>
    rw [List.cons_append, heights, heights, ih]
    omega

/-- How many levels a stretch can add to the depth at which it lies. -/
def Stretch.height : Stretch → Nat
  | .node n => Flow.height n
  | .nodes ns => heights ns
  | .branches _ ns => max 1 (heights ns)
  | .branch _ n => Flow.height n
  | .items _ _ ns => heights ns
  | .enter _ => 1
  | .leave => 1

/-- The stretch that begins with a state lies between two depths. -/
structure Between (low high : Int) (x : Stretch × State) : Prop where
  low : low + x.1.floor ≤ x.2.depth
  high : x.2.depth + x.1.height ≤ high + x.1.floor

namespace Between

variable {low high : Int} {t : Stretch}

/-- The walk is between the depths in front of the stretch. -/
theorem start (h : Between low high (t, st)) : low ≤ st.depth ∧ st.depth ≤ high := by
  obtain ⟨hlow, hhigh⟩ := h
  simp only at hlow hhigh
  have hfloor : 0 ≤ t.floor ∧ t.floor ≤ t.height := by
    cases t with
    | node n => exact ⟨Int.le_refl 0, Int.natCast_nonneg _⟩
    | nodes ns => exact ⟨Int.le_refl 0, Int.natCast_nonneg _⟩
    | items first id ns => exact ⟨Int.le_refl 0, Int.natCast_nonneg _⟩
    | branches first ns =>
      cases first <;> simp only [Stretch.floor, Stretch.height] <;> omega
    | branch first n =>
      have hpos := height_pos n
      cases first <;> simp only [Stretch.floor, Stretch.height] <;> omega
    | enter first => cases first <;> simp [Stretch.floor, Stretch.height]
    | leave => simp [Stretch.floor, Stretch.height]
  omega

theorem finish (h : Between low high (t, st)) (hrun : t.run o b st = .ok st') :
    low ≤ st'.depth ∧ st'.depth ≤ high := by
  have hrise := Stretch.depth_run hrun
  obtain ⟨hlow, hhigh⟩ := h
  simp only at hlow hhigh
  have hfloor : 0 ≤ t.rise + t.floor ∧ t.rise + t.floor ≤ t.height := by
    cases t with
    | node n => exact ⟨Int.le_refl 0, Int.natCast_nonneg _⟩
    | nodes ns => exact ⟨Int.le_refl 0, Int.natCast_nonneg _⟩
    | items first id ns => exact ⟨Int.le_refl 0, Int.natCast_nonneg _⟩
    | branches first ns =>
      cases first <;> cases ns <;>
        simp only [Stretch.rise, Stretch.floor, Stretch.height] <;> omega
    | branch first n =>
      have hpos := height_pos n
      cases first <;> simp only [Stretch.rise, Stretch.floor, Stretch.height] <;> omega
    | enter first => cases first <;> simp [Stretch.rise, Stretch.floor, Stretch.height]
    | leave => simp [Stretch.rise, Stretch.floor, Stretch.height]
  omega

end Between

/-- What a stretch between two depths calls lies between them too. -/
theorem Calls.between {low high : Int} {x y : Stretch × State} (hcalls : Calls o b x y)
    (h : Between low high x) : Between low high y := by
  obtain ⟨hlow, hhigh⟩ := h
  cases hcalls with
  | sequence =>
    simp only [Stretch.floor, Stretch.height, height] at hlow hhigh
    constructor <;> simp only [Stretch.floor, Stretch.height] <;> omega
  | conditional hcheck =>
    simp only [Stretch.floor, Stretch.height, height] at hlow hhigh
    constructor <;> simp only [Stretch.floor, Stretch.height] <;> omega
  | close hcheck hrun =>
    rename_i tag space attrs children st st'
    have hopen := depth_runBranches o b true children _ _ hrun
    cases children with
    | nil => simpa using (checkBranches_ok hcheck).2
    | cons c cs =>
      simp only [Stretch.floor, Stretch.height, height, Stretch.rise] at hlow hhigh hopen
      constructor <;> simp only [Stretch.floor, Stretch.height] <;> omega
  | head =>
    simp only [Stretch.floor, Stretch.height, heights] at hlow hhigh
    constructor <;> simp only [Stretch.floor, Stretch.height] <;> omega
  | tail hrun =>
    have hsame := depth_runNode _ _ _ _ _ hrun
    simp only [Stretch.floor, Stretch.height, heights] at hlow hhigh
    constructor <;> simp only [Stretch.floor, Stretch.height] <;> omega
  | branch =>
    rename_i first n ns st
    have hpos := height_pos n
    cases first <;> simp only [Stretch.floor, Stretch.height, heights] at hlow hhigh <;>
      constructor <;> simp only [Stretch.floor, Stretch.height] <;> omega
  | branches hrun =>
    rename_i first n ns st st'
    have hopen := depth_runBranch _ _ _ _ _ _ hrun
    cases first <;>
      simp only [Stretch.floor, Stretch.height, heights, Stretch.rise] at hlow hhigh hopen <;>
      constructor <;> simp only [Stretch.floor, Stretch.height] <;> omega
  | enter =>
    rename_i first n st
    have hpos := height_pos n
    cases first <;> simp only [Stretch.floor, Stretch.height] at hlow hhigh <;>
      constructor <;> simp only [Stretch.floor, Stretch.height] <;> omega
  | leave => exact ⟨hlow, hhigh⟩
  | inside hopen =>
    rename_i first kind tag space attrs children st st'
    have hrise := depth_openBranch hopen
    cases first <;>
      simp only [Stretch.floor, Stretch.height, height, Stretch.rise] at hlow hhigh hrise <;>
      constructor <;> simp only [Stretch.floor, Stretch.height] <;> omega
  | condition hk hrun =>
    have hsame := depth_runCondition hrun
    simp only [Stretch.floor, Stretch.height, heights] at hlow hhigh
    constructor <;> simp only [Stretch.floor, Stretch.height] <;> omega
  | item hk hbefore =>
    have hsame := depth_beforeItem hbefore
    simp only [Stretch.floor, Stretch.height, heights] at hlow hhigh
    constructor <;> simp only [Stretch.floor, Stretch.height] <;> omega
  | items hk hbefore hrun =>
    have hsame := depth_beforeItem hbefore
    have hsame' := depth_runNode _ _ _ _ _ hrun
    simp only [Stretch.floor, Stretch.height, heights] at hlow hhigh
    constructor <;> simp only [Stretch.floor, Stretch.height] <;> omega

/-- Wherever the walk over activities comes to, it is between the depth it began at and that depth with
the height of the activities. -/
theorem between_of_calls {ns : List Node} {x : Stretch × State}
    (h : Relation.ReflTransGen (Calls o b) (.nodes ns, st) x) :
    Between st.depth (st.depth + heights ns) x := by
  induction h with
  | refl => constructor <;> simp only [Stretch.floor, Stretch.height] <;> omega
  | tail _ hcalls ih => exact hcalls.between ih

end Flowsmith.Flow
