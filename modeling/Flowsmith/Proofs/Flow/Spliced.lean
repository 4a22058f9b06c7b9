import Flowsmith.Proofs.Flow.Balance

/-!
# Sequences in place

A sequence in a definition adds nothing of its own: the walk writes what is in it. So a definition has
the expression it had once the activities of its sequences stand in their place, as long as no condition
gets another name by it and no first branch comes to begin with a conditional.

* `Node.spliced`, `splicedAll` : activities with those of their sequences in place;
* `Steady` : what an activity that is reached keeps, the name of a condition and the place of one;
* `lowerNodes_spliced`, `lowerSlot_spliced` : the pieces are the same;
* `expression_spliced` : so is the expression.
-/

namespace Flowsmith.Definition

mutual

/-- An activity with the activities of the sequences below it in place; of a sequence, its activities.
A condition that `stays` picks is left as it is. -/
def Node.spliced (stays : Node → Bool) : Node → List Node
  | .mk kind tag space attrs children =>
    match kind with
    | .sequence => splicedAll stays children
    | .condition =>
      if stays (.mk .condition tag space attrs children) then [.mk .condition tag space attrs children]
      else [.mk .condition tag space attrs (splicedAll stays children)]
    | kind => [.mk kind tag space attrs (splicedAll stays children)]

/-- Activities with those of their sequences in place. -/
def splicedAll (stays : Node → Bool) : List Node → List Node
  | [] => []
  | n :: ns => n.spliced stays ++ splicedAll stays ns

end

/-- An activity that stays itself, with the activities of the sequences below it in place. -/
def Node.spliceBelow (stays : Node → Bool) : Node → Node
  | .mk kind tag space attrs children => .mk kind tag space attrs (splicedAll stays children)

@[simp] theorem Node.kind_spliceBelow (stays : Node → Bool) (n : Node) :
    (n.spliceBelow stays).kind = n.kind := by
  cases n
  rfl

@[simp] theorem Node.children_spliceBelow (stays : Node → Bool) (n : Node) :
    (n.spliceBelow stays).children = splicedAll stays n.children := by
  cases n
  rfl

/-- A condition is one that stays, or the condition with the sequences below it in place. -/
theorem Node.spliced_condition (stays : Node → Bool) {n : Node} (hk : n.kind = .condition) :
    n.spliced stays = [if stays n then n else n.spliceBelow stays] := by
  obtain ⟨kind, tag, space, attrs, children⟩ := n
  obtain rfl : kind = .condition := hk
  simp only [Node.spliced, Node.spliceBelow]
  split <;> rfl

theorem Node.spliced_self (stays : Node → Bool) {n : Node} (hs : n.kind ≠ .sequence)
    (hc : n.kind ≠ .condition) : n.spliced stays = [n.spliceBelow stays] := by
  obtain ⟨kind, tag, space, attrs, children⟩ := n
  cases kind with
  | sequence => exact absurd rfl hs
  | condition => exact absurd rfl hc
  | _ => rfl

theorem splicedAll_branches (stays : Node → Bool) {ns : List Node}
    (hk : ∀ n ∈ ns, n.kind = .branch) : splicedAll stays ns = ns.map (Node.spliceBelow stays) := by
  induction ns with
  | nil => rfl
  | cons n ns ih =>
    rw [List.forall_mem_cons] at hk
    rw [splicedAll, n.spliced_self stays (by simp [hk.1]) (by simp [hk.1]), ih hk.2, List.map_cons,
      List.singleton_append]

end Flowsmith.Definition

namespace Flowsmith.Flow

open Definition (Node Kind Bindings splicedAll)
open Expression (blank)

section Spliced

variable {o : Options} {b : Bindings} {stays : Node → Bool}

/-- An activity keeps what the walk takes from it at once: a condition its name, and a conditional the
place of its condition, which is not left for want of a sequence. -/
structure Steady (o : Options) (stays : Node → Bool) (n : Node) : Prop where
  name : n.kind = .condition → stays n = false → nameOf o (n.spliceBelow stays) = nameOf o n
  place : leavesOpen o (n.spliceBelow stays) = true → leavesOpen o n = true

instance (o : Options) (stays : Node → Bool) (n : Node) : Decidable (Steady o stays n) :=
  decidable_of_iff
    ((n.kind = .condition → stays n = false → nameOf o (n.spliceBelow stays) = nameOf o n) ∧
      (leavesOpen o (n.spliceBelow stays) = true → leavesOpen o n = true))
    ⟨fun h => ⟨h.1, h.2⟩, fun h => ⟨h.1, h.2⟩⟩

theorem Steady.spliced {n : Node} (h : Steady o stays n) (hk : n.kind = .condition) :
    ∃ m, n.spliced stays = [m] ∧ m.kind = .condition ∧ nameOf o m = nameOf o n := by
  refine ⟨_, n.spliced_condition stays hk, ?_⟩
  cases hstays : stays n with
  | true => exact ⟨hk, rfl⟩
  | false => exact ⟨by simpa using hk, h.name hk hstays⟩

theorem Steady.first {n : Node} (h : Steady o stays n) (hk : n.kind = .conditional)
    (hbranches : ∀ c ∈ n.children, c.kind = .branch) :
    ∀ c ∈ n.children.head?, leavesPlace o (splicedAll stays c.children) = true →
      leavesPlace o c.children = true := by
  intro c hc hleaves
  obtain ⟨rest, hn⟩ := List.head?_eq_some_iff.1 hc
  have hspliced : (n.spliceBelow stays).children
      = c.spliceBelow stays :: rest.map (Node.spliceBelow stays) := by
    rw [n.children_spliceBelow, Definition.splicedAll_branches stays hbranches, hn, List.map_cons]
  have hplace := h.place
  rw [leavesOpen_conditional hk hn, leavesOpen_conditional (by simpa using hk) hspliced,
    c.children_spliceBelow] at hplace
  exact hplace hleaves

/-! ## Pieces -/

theorem lowerNodes_append {d : Int} {stray : Node → Fault} (ns ms : List Node) :
    lowerNodes o b d stray (ns ++ ms)
      = join (lowerNodes o b d stray ns) (lowerNodes o b d stray ms) := by
  induction ns with
  | nil => rw [List.nil_append, lowerNodes, join_blank]
  | cons n ns ih => rw [List.cons_append, lowerNodes, lowerNodes, ih, join_assoc]

theorem lowerNodes_single {d : Int} {stray : Node → Fault} {n : Node} (hk : n.kind ≠ .condition) :
    lowerNodes o b d stray [n] = lowerNode o b d n := by
  rw [lowerNodes, if_neg hk, lowerNodes]
  cases lowerNode o b d n with
  | error f => rfl
  | ok p => rw [join_ok, Expression.append_blank]

/-- Activities that do not begin with a conditional fill no place. -/
theorem lowerSlot_of_lowerNodes {d : Int} {id : Bytes} {ns : List Node} {p : Expression}
    (h : lowerNodes o b d (fun _ => surplusCondition true id) ns = .ok p)
    (hplace : leavesPlace o ns = false) :
    lowerSlot o b d id ns = join (lowerMissing o id) (.ok p) := by
  cases ns with
  | nil =>
    cases h
    rw [lowerSlot]
    cases lowerMissing o id with
    | error f => rfl
    | ok q => rw [join_ok, Expression.append_blank]
  | cons n ns =>
    have hk : n.kind ≠ .condition := lowerNodes_no_condition h n List.mem_cons_self
    obtain ⟨hname, hleads⟩ := slot_of_no_condition (o := o) ns hk
    have hc : n.kind ≠ .conditional := by
      intro hc
      simp [leavesPlace, hname, hleads, hc] at hplace
    rw [lowerNodes, if_neg hk] at h
    rw [lowerSlot, if_neg hk, if_neg hc, h]

theorem lowerNode_of_branches {d : Int} {n : Node} {p last : Expression} (hk : n.kind = .conditional)
    (hcheck : checkBranches n.id n.children = .ok ())
    (hbranches : lowerBranches o b d true n.children = .ok p) (hlast : lineAt o d endMark = .ok last) :
    lowerNode o b d n = .ok { p ++ last with conditionals := (p ++ last).conditionals + 1 } := by
  obtain ⟨kind, tag, space, attrs, children⟩ := n
  obtain rfl : kind = .conditional := hk
  simp only [Node.children] at hcheck hbranches
  simp only [lowerNode, hcheck, hbranches, hlast, join_ok]
  rfl

theorem leavesPlace_unnamed {n : Node} (ns : List Node) (hk : n.kind = .condition)
    (hname : nameOf o n = []) : leavesPlace o (n :: ns) = leavesPlace o ns := by
  rw [leavesPlace, leavesPlace, givenName_of_unnamed ns hk hname, leadsToConditional_of_condition ns hk]

/-! ## The pieces of what is in place

A piece that can be had is had from the spliced activities as well. No condition is among activities of
which there is a piece, so the fault that a stray one would be does not matter. -/

mutual

theorem lowerNode_spliced : ∀ (d : Int) (n : Node) (p : Expression), lowerNode o b d n = .ok p →
    (∀ x ∈ reached d n, Steady o stays x.2) → ∀ stray : Node → Fault,
    lowerNodes o b d stray (n.spliced stays) = .ok p
  | d, .mk .sequence tag space attrs children, p, h, hs, stray => by
    simp only [lowerNode] at h
    simp only [reached, List.forall_mem_cons] at hs
    exact lowerNodes_spliced d _ children p h hs.2 stray
  | d, .mk .conditional tag space attrs children, p, h, hs, stray => by
    obtain ⟨q, last, hcheck, hbranches, hlast, rfl⟩ := lowerNode_conditional rfl h
    simp only [reached, List.forall_mem_cons] at hs
    have hk : ∀ c ∈ children, c.kind = .branch := (checkBranches_ok hcheck).1
    have hspliced := lowerBranches_spliced d true children q hk hbranches hs.2
      fun _ => hs.1.first rfl hk
    have hcheck' : checkBranches (Node.mk .conditional tag space attrs (splicedAll stays children)).id
        (splicedAll stays children) = .ok () := by
      rw [Definition.splicedAll_branches stays hk, checkBranches_ok_iff, List.length_map]
      exact ⟨(checkBranches_ok hcheck).2, by simpa using hk⟩
    rw [Node.spliced_self stays (by simp [Node.kind]) (by simp [Node.kind]),
      lowerNodes_single (by simp [Node.spliceBelow, Node.kind])]
    exact lowerNode_of_branches rfl hcheck' hspliced hlast
  | d, .mk .step tag space attrs children, p, h, _, stray =>
    (lowerNodes_single (by simp [Node.kind])).trans h
  | d, .mk .branch tag space attrs children, p, h, _, _ => by
    simp only [lowerNode] at h
    cases h
  | d, .mk .condition tag space attrs children, p, h, _, _ => by
    simp only [lowerNode] at h
    cases h
  | d, .mk .unknown tag space attrs children, p, h, _, _ => by
    simp only [lowerNode] at h
    cases h

theorem lowerNodes_spliced : ∀ (d : Int) (stray : Node → Fault) (ns : List Node) (p : Expression),
    lowerNodes o b d stray ns = .ok p → (∀ x ∈ reachedAll d ns, Steady o stays x.2) →
    ∀ stray' : Node → Fault, lowerNodes o b d stray' (splicedAll stays ns) = .ok p
  | d, stray, [], p, h, _, _ => h
  | d, stray, n :: ns, p, h, hs, stray' => by
    have hk := lowerNodes_no_condition h n List.mem_cons_self
    rw [lowerNodes, if_neg hk] at h
    rw [reachedAll, List.forall_mem_append] at hs
    obtain ⟨q, r, hq, hr, rfl⟩ := join_eq_ok h
    rw [splicedAll, lowerNodes_append, lowerNode_spliced d n q hq hs.1 stray',
      lowerNodes_spliced d stray ns r hr hs.2 stray', join_ok]

theorem lowerBranches_spliced : ∀ (d : Int) (first : Bool) (ns : List Node) (p : Expression),
    (∀ n ∈ ns, n.kind = .branch) → lowerBranches o b d first ns = .ok p →
    (∀ x ∈ reachedAll d ns, Steady o stays x.2) →
    (first = true → ∀ n ∈ ns.head?, leavesPlace o (splicedAll stays n.children) = true →
      leavesPlace o n.children = true) →
    lowerBranches o b d first (splicedAll stays ns) = .ok p
  | d, first, [], p, _, h, _, _ => h
  | d, first, n :: ns, p, hk, h, hs, hplace => by
    rw [lowerBranches] at h
    rw [reachedAll, List.forall_mem_append] at hs
    rw [List.forall_mem_cons] at hk
    obtain ⟨q, r, hq, hr, rfl⟩ := join_eq_ok h
    rw [splicedAll, n.spliced_self stays (by simp [hk.1]) (by simp [hk.1]), List.singleton_append,
      lowerBranches, lowerBranch_spliced d first n q hk.1 hq hs.1 fun hf => hplace hf n rfl,
      lowerBranches_spliced d false ns r hk.2 hr hs.2 (fun hf => by cases hf), join_ok]

theorem lowerBranch_spliced : ∀ (d : Int) (first : Bool) (n : Node) (p : Expression),
    n.kind = .branch → lowerBranch o b d first n = .ok p → (∀ x ∈ reached d n, Steady o stays x.2) →
    (first = true → leavesPlace o (splicedAll stays n.children) = true →
      leavesPlace o n.children = true) →
    lowerBranch o b d first (n.spliceBelow stays) = .ok p
  | d, true, .mk kind tag space attrs children, p, hk, h, hs, hplace => by
    obtain rfl : kind = .branch := hk
    simp only [reached, List.forall_mem_cons] at hs
    obtain ⟨mark, q, hmark, hq, rfl⟩ := lowerBranch_first h
    have hslot := lowerSlot_spliced (d + 1) _ children q hq hs.2 (hplace rfl)
    change join (lineAt o d ifMark) (lowerSlot o b (d + 1) _ (splicedAll stays children)) = _
    rw [hmark]
    exact (congrArg _ hslot).trans (join_ok mark q)
  | d, false, .mk kind tag space attrs children, p, hk, h, hs, _ => by
    obtain rfl : kind = .branch := hk
    simp only [reached, List.forall_mem_cons] at hs
    obtain ⟨mark, q, hmark, hq, rfl⟩ := lowerBranch_second h
    have hbody := lowerNodes_spliced (d + 1) _ children q hq hs.2
    change join (lineAt o d elseMark) (lowerNodes o b (d + 1) _ (splicedAll stays children)) = _
    rw [hmark, hbody, join_ok]

theorem lowerSlot_spliced : ∀ (d : Int) (id : Bytes) (ns : List Node) (p : Expression),
    lowerSlot o b d id ns = .ok p → (∀ x ∈ reachedAll d ns, Steady o stays x.2) →
    (leavesPlace o (splicedAll stays ns) = true → leavesPlace o ns = true) →
    lowerSlot o b d id (splicedAll stays ns) = .ok p
  | d, id, [], p, h, _, _ => h
  | d, id, n :: ns, p, h, hs, hplace => by
    have hsteady := hs (d, n) (mem_reachedAll List.mem_cons_self)
    rw [reachedAll, List.forall_mem_append] at hs
    by_cases hk : n.kind = .condition
    · obtain ⟨m, hm, hmk, hname⟩ := hsteady.spliced hk
      rw [lowerSlot, if_pos hk] at h
      rw [splicedAll, hm, List.singleton_append] at hplace ⊢
      rw [lowerSlot, if_pos hmk, hname]
      by_cases he : (nameOf o n).isEmpty = true
      · have hempty := List.isEmpty_iff.1 he
        rw [leavesPlace_unnamed _ hmk (hname.trans hempty), leavesPlace_unnamed _ hk hempty] at hplace
        rw [if_pos he] at h ⊢
        exact lowerSlot_spliced d id ns p h hs.2 hplace
      · rw [if_neg he] at h ⊢
        obtain ⟨q, r, hq, hr, rfl⟩ := join_eq_ok h
        cases hq
        rw [lowerNodes_spliced d _ ns r hr hs.2 _, join_ok]
    · rw [lowerSlot, if_neg hk] at h
      obtain ⟨q, r, hq, hr, rfl⟩ := join_eq_ok h
      obtain ⟨s, t, hs', ht, rfl⟩ := join_eq_ok hr
      have hn := lowerNode_spliced d n s hs' hs.1 fun _ => surplusCondition true id
      have hns := lowerNodes_spliced d _ ns t ht hs.2 fun _ => surplusCondition true id
      by_cases hc : n.kind = .conditional
      · rw [if_pos hc] at hq
        cases hq
        have hself := n.spliced_self stays (by simp [hc]) hk
        rw [hself, lowerNodes_single (by simp [hc])] at hn
        rw [splicedAll, hself, List.singleton_append, lowerSlot,
          if_neg (by simp [hc]), if_pos (by simpa using hc), hn, hns, join_ok, join_ok]
      · rw [if_neg hc] at hq
        have hstill : leavesPlace o (splicedAll stays (n :: ns)) = false := by
          rw [← Bool.not_eq_true]
          intro hleaves
          have hbefore := hplace hleaves
          rw [leavesPlace, (slot_of_no_condition (o := o) ns hk).2] at hbefore
          simp [hc] at hbefore
        have hall : lowerNodes o b d (fun _ => surplusCondition true id) (splicedAll stays (n :: ns))
            = .ok (s ++ t) := by
          rw [splicedAll, lowerNodes_append, hn, hns, join_ok]
        rw [lowerSlot_of_lowerNodes hall hstill, hq, join_ok]

end

/-! ## The top -/

theorem closableAll_append {d : Int} {ns ms : List Node} (hns : ClosableAll d ns)
    (hms : ClosableAll d ms) : ClosableAll d (ns ++ ms) := by
  induction ns with
  | nil => exact hms
  | cons n ns ih => exact ⟨hns.1, ih hns.2⟩

mutual

theorem closable_spliced : ∀ (n : Node) {d : Int}, Closable d n → ClosableAll d (n.spliced stays)
  | .mk .sequence _ _ _ children, _, h => closableAll_spliced children h
  | .mk .conditional _ _ _ children, _, h => ⟨⟨h.1, closableAll_spliced children h.2⟩, trivial⟩
  | .mk .branch _ _ _ children, d, h => ⟨closableAll_spliced (d := d + 1) children h, trivial⟩
  | .mk .condition tag space attrs children, d, _ => by
    rw [Node.spliced_condition stays rfl]
    refine ⟨closable_of_condition ?_, trivial⟩
    split <;> rfl
  | .mk .step _ _ _ _, _, _ => ⟨trivial, trivial⟩
  | .mk .unknown _ _ _ _, _, _ => ⟨trivial, trivial⟩

theorem closableAll_spliced : ∀ (ns : List Node) {d : Int}, ClosableAll d ns →
    ClosableAll d (splicedAll stays ns)
  | [], _, _ => trivial
  | n :: ns, _, h => closableAll_append (closable_spliced n h.1) (closableAll_spliced ns h.2)

end

end Spliced

/-! ## Expressions -/

/-- **Sequences in place.** A definition has the same expression with the activities of its sequences in
their place, if the conditions that are reached keep their names and no first branch leaves the place of
its condition for want of a sequence. -/
theorem expression_spliced (o : Options) (b : Bindings) (stays : Node → Bool) (root : Node)
    (e : Expression) (h : expression o ⟨some root, b⟩ = .ok e)
    (hsteady : ∀ x ∈ reached o.baseDepth root, Steady o stays x.2) :
    expression o ⟨some (root.spliceBelow stays), b⟩ = .ok e := by
  obtain ⟨hk, hclosable, p, hp, he⟩ := (expression_ok_iff_lowers o b root e).1 h
  have hbelow : ∀ x ∈ reachedAll o.baseDepth root.children, Steady o stays x.2 := by
    obtain ⟨kind, tag, space, attrs, children⟩ := root
    obtain rfl : kind = .sequence := hk
    exact fun x hx => hsteady x (List.mem_cons_of_mem _ hx)
  rw [expression_ok_iff_lowers, root.kind_spliceBelow, root.children_spliceBelow]
  exact ⟨hk, closableAll_spliced root.children hclosable, p,
    lowerNodes_spliced _ _ root.children p hp hbelow _, he⟩

/-- Sequences at the top, in each branch, below a condition and below a step. -/
def wrapped : Node :=
  .mk .sequence "S" [] []
    [.mk .sequence "S" [] [] [],
     .mk .conditional "C" [] []
      [.mk .branch "B" [] []
        [.mk .condition "K" [] []
          [.mk .condition "K" [] [("Condition", "Ready")] [.mk .sequence "S" [] [] []]],
         .mk .sequence "S" [] [] [.mk .sequence "S" [] [] [.mk .step "A" [] [] []]]],
       .mk .branch "B" [] []
        [.mk .sequence "S" [] []
          [.mk .conditional "C" [] [] [.mk .branch "D" [] [] [.mk .sequence "S" [] [] []]],
           .mk .step "E" [] [] [.mk .sequence "S" [] [] []]]]]]

def unwrapped : Node :=
  .mk .sequence "S" [] []
    [.mk .conditional "C" [] []
      [.mk .branch "B" [] []
        [.mk .condition "K" [] [] [.mk .condition "K" [] [("Condition", "Ready")] []],
         .mk .step "A" [] [] []],
       .mk .branch "B" [] []
        [.mk .conditional "C" [] [] [.mk .branch "D" [] [] []], .mk .step "E" [] [] []]]]

theorem expression_unwrapped : ∃ e,
    expression ⟨"f", 0, 0, "Condition", [], false⟩ ⟨some wrapped, []⟩ = .ok e ∧
    expression ⟨"f", 0, 0, "Condition", [], false⟩ ⟨some unwrapped, []⟩ = .ok e ∧
    e.text = "f\n.If(() => Ready())\n.Do<A>()\n.Else()\n.If(() => )\n.EndIf()\n.Do<E>()\n.EndIf()" := by
  have h : expression ⟨"f", 0, 0, "Condition", [], false⟩ ⟨some wrapped, []⟩ = .ok
      ⟨"f\n.If(() => Ready())\n.Do<A>()\n.Else()\n.If(() => )\n.EndIf()\n.Do<E>()\n.EndIf()",
        [missingWarning "D"], 2, 2⟩ := by
    rw [wrapped]
    repeat rw [Bytes.ofString_ofList]
    decide +kernel
  have hsteady : ∀ x ∈ reached 0 wrapped,
      Steady ⟨"f", 0, 0, "Condition", [], false⟩ (fun _ => false) x.2 := by decide +kernel
  exact ⟨_, h, expression_spliced _ _ (fun _ => false) wrapped _ h hsteady, rfl⟩

/-- A condition whose name is below a sequence. -/
def buried : Node :=
  .mk .sequence "S" [] []
    [.mk .conditional "C" [] []
      [.mk .branch "B" [] []
        [.mk .condition "W" [] []
          [.mk .sequence "S" [] [] [.mk .condition "K" [] [("Condition", "Ready")] []]]]]]

/-- A first branch without a name that begins with a sequence, and the sequence with a conditional. -/
def led : Node :=
  .mk .sequence "S" [] []
    [.mk .conditional "C" [] []
      [.mk .branch "B" [] []
        [.mk .sequence "S" [] []
          [.mk .conditional "C" [] []
            [.mk .branch "D" [] [] [.mk .condition "K" [] [("Condition", "Ready")] []]]]]]]

/-- Neither of the two has the expression that it has with its sequences in place. -/
theorem expression_of_buried_and_led :
    let o : Options := ⟨"f", 0, 0, "Condition", [], false⟩
    (expression o ⟨some buried, []⟩
        = .ok ⟨"f\n.If(() => )\n.EndIf()", [missingWarning "B"], 0, 1⟩ ∧
      expression o ⟨some (buried.spliceBelow fun _ => false), []⟩
        = .ok ⟨"f\n.If(() => Ready())\n.EndIf()", [], 0, 1⟩) ∧
    (expression o ⟨some led, []⟩
        = .ok ⟨"f\n.If(() => )\n.If(() => Ready())\n.EndIf()\n.EndIf()", [missingWarning "B"], 0, 2⟩ ∧
      expression o ⟨some (led.spliceBelow fun _ => false), []⟩
        = .ok ⟨"f\n.If(() => \n.If(() => Ready())\n.EndIf()\n.EndIf()", [], 0, 2⟩) := by
  intro o
  rw [buried, led]
  repeat rw [Bytes.ofString_ofList]
  refine ⟨⟨?_, ?_⟩, ?_, ?_⟩ <;> decide +kernel

end Flowsmith.Flow
