import Flowsmith.Proofs.Definition.Scope
import Flowsmith.Proofs.Flow.Closing
import Flowsmith.Proofs.Flow.Shape

/-!
# The parentheses of an expression

The mark of a conditional opens one parenthesis more than it closes. What stands in the place of the
condition closes it, unless the place is left to a conditional: then it stays open to the end.

* `surplus` : how many more parentheses a text opens than it closes;
* `leavesOpen` : a conditional whose first branch leaves its place to another one;
* `surplus_chain` : the chain of activities opens one parenthesis more for each of these;
* `surplus_of_expression` : so does an expression, over a balanced receiver and balanced names.
-/

namespace Flowsmith.Flow

open Definition (Node Kind Bindings)
open Expression (ofText)

/-! ## Counting -/

/-- How many more parentheses a text opens than it closes. -/
def surplus (s : Bytes) : Int := (s.count '('.toUInt8 : Int) - s.count ')'.toUInt8

@[simp] theorem surplus_nil : surplus [] = 0 := rfl

@[simp] theorem surplus_append (s t : Bytes) : surplus (s ++ t) = surplus s + surplus t := by
  simp only [surplus, List.count_append]
  omega

theorem surplus_spaces (n : Nat) : surplus (Bytes.spaces n) = 0 := by
  have hopen : (Bytes.spaces n).count '('.toUInt8 = 0 := List.count_replicate.trans (if_neg (by decide))
  have hclose : (Bytes.spaces n).count ')'.toUInt8 = 0 := List.count_replicate.trans (if_neg (by decide))
  rw [surplus, hopen, hclose]
  rfl

theorem surplus_stepCall (type : Bytes) : surplus (stepCall type) = surplus type := by
  have hdo : surplus (".Do<" : Bytes) = 0 := by decide
  have hend : surplus (">()" : Bytes) = 0 := by decide
  rw [stepCall, surplus_append, surplus_append, hdo, hend]
  omega

theorem surplus_newLine {pad : Int → Bytes} (hpad : ∀ d, surplus (pad d) = 0) (d : Int) (s : Bytes) :
    surplus (newLine pad d s) = surplus s := by
  have hbreak : surplus [Bytes.newline] = 0 := by decide
  rw [newLine, surplus_append, surplus_append, hpad, hbreak]
  omega

/-! ## The place of a condition -/

/-- Whether a first branch gives no name and leaves the place of its condition to a conditional. -/
def leavesPlace (o : Options) (cs : List Node) : Bool :=
  (givenName o cs).isEmpty && leadsToConditional cs

/-- Whether an activity is a conditional whose first branch leaves the place of its condition to
another one. -/
def leavesOpen (o : Options) (n : Node) : Bool :=
  n.kind = .conditional && n.children.head?.any (leavesPlace o ·.children)

theorem leavesOpen_eq_false {o : Options} {n : Node} (h : n.kind ≠ .conditional) :
    leavesOpen o n = false := by
  simp [leavesOpen, h]

theorem leavesOpen_conditional {o : Options} {n first : Node} {rest : List Node}
    (hk : n.kind = .conditional) (hn : n.children = first :: rest) :
    leavesOpen o n = leavesPlace o first.children := by
  simp [leavesOpen, hk, hn]

/-- What an activity writes under a name is balanced: the type of a step and the name of a condition. -/
structure Matched (o : Options) (b : Bindings) (n : Node) : Prop where
  step : isWritten o n = true → ∀ type ∈ (stepType b n).toOption, surplus type = 0
  condition : n.kind = .condition → surplus (nameOf o n) = 0

instance (o : Options) (b : Bindings) (n : Node) : Decidable (Matched o b n) :=
  decidable_of_iff ((isWritten o n = true → ∀ type ∈ (stepType b n).toOption, surplus type = 0) ∧
    (n.kind = .condition → surplus (nameOf o n) = 0)) ⟨fun h => ⟨h.1, h.2⟩, fun h => ⟨h.1, h.2⟩⟩

theorem surplus_givenName {o : Options} {cs : List Node}
    (h : ∀ c ∈ cs, c.kind = .condition → surplus (nameOf o c) = 0) : surplus (givenName o cs) = 0 := by
  unfold givenName
  cases hlast : (leading cs).getLast? with
  | none => rfl
  | some c =>
    have hc : c ∈ leading cs := List.mem_of_getLast? hlast
    exact h c ((List.takeWhile_prefix _).subset hc) (by simpa using List.mem_takeWhile_imp hc)

/-- What stands in the place of a condition closes one parenthesis, unless the place is left. -/
theorem surplus_slot {o : Options} {cs : List Node}
    (h : ∀ c ∈ cs, c.kind = .condition → surplus (nameOf o c) = 0) :
    1 + surplus (slot o cs) = (leavesPlace o cs).toNat := by
  have hname := surplus_givenName h
  have hcall : surplus ("())" : Bytes) = -1 := by decide
  have hclose : surplus (")" : Bytes) = -1 := by decide
  unfold slot leavesPlace
  cases (givenName o cs).isEmpty with
  | false => simp [hname, hcall]
  | true => cases leadsToConditional cs <;> simp [hclose]

/-! ## The chain of a definition -/

section Chain

variable {o : Options} {b : Bindings} {pad : Int → Bytes}

/-- An activity that the walk gets past, with balanced names. -/
def Even (o : Options) (b : Bindings) (x : Int × Node) : Prop := Allowed o b x.2 ∧ Matched o b x.2

/-- How many of the activities leave a parenthesis open. -/
def countOpen (o : Options) (xs : List (Int × Node)) : Nat := xs.countP (leavesOpen o ·.2)

theorem countOpen_append (xs ys : List (Int × Node)) :
    countOpen o (xs ++ ys) = countOpen o xs + countOpen o ys := List.countP_append

theorem countOpen_skip {d : Int} {n : Node} (xs : List (Int × Node)) (h : n.kind ≠ .conditional) :
    countOpen o ((d, n) :: xs) = countOpen o xs :=
  List.countP_cons_of_neg (by simp [leavesOpen_eq_false h])

theorem countOpen_conditional {d : Int} {n first : Node} {rest : List Node} (xs : List (Int × Node))
    (hk : n.kind = .conditional) (hn : n.children = first :: rest) :
    countOpen o ((d, n) :: xs) = (leavesPlace o first.children).toNat + countOpen o xs := by
  rw [countOpen, List.countP_cons, leavesOpen_conditional hk hn, Nat.add_comm]
  cases leavesPlace o first.children <;> rfl

/-- The conditions in a branch whose activities are even have balanced names. -/
theorem surplus_conditions {d : Int} {cs : List Node} (h : ∀ x ∈ reachedAll d cs, Even o b x) :
    ∀ c ∈ cs, c.kind = .condition → surplus (nameOf o c) = 0 := fun c hc hk =>
  (h (d, c) (mem_reachedAll hc)).2.condition hk

mutual

theorem surplus_chainNode (hpad : ∀ d, surplus (pad d) = 0) : ∀ (d : Int) (n : Node),
    IsActivity n ∨ n.kind = .condition → (∀ x ∈ reached d n, Even o b x) →
    surplus (chainNode pad o b d n) = countOpen o (reached d n)
  | d, .mk .sequence tag space attrs children, _, h => by
    simp only [chainNode, reached, List.forall_mem_cons] at h ⊢
    rw [countOpen_skip _ (by simp [Node.kind])]
    exact surplus_chain hpad d children (fun c hc => Or.inl (h.1.1.inside rfl c hc)) h.2
  | d, .mk .conditional tag space attrs [], _, h => by
    have hlen := (h _ List.mem_cons_self).1.branches rfl
    simp [Node.children] at hlen
  | d, .mk .conditional tag space attrs [.mk kind tag₁ space₁ attrs₁ cs], _, h => by
    have hself := (h _ List.mem_cons_self).1
    obtain rfl : kind = .branch := (hself.branches rfl).2 _ List.mem_cons_self
    simp only [chainNode, reached, reachedAll, List.append_nil, List.forall_mem_cons] at h ⊢
    have hbody := surplus_chain hpad (d + 1) cs (hself.first rfl _ rfl).items h.2.2
    have hslot := surplus_slot (surplus_conditions h.2.2)
    have hif : surplus ifMark = 1 := by decide
    have hend : surplus endMark = 0 := by decide
    rw [countOpen_conditional _ rfl rfl, countOpen_skip _ (by simp [Node.kind])]
    simp only [surplus_append, surplus_newLine hpad, hif, hend, hbody, Node.children]
    omega
  | d, .mk .conditional tag space attrs
      [.mk kind tag₁ space₁ attrs₁ cs, .mk kind₂ tag₂ space₂ attrs₂ ds], _, h => by
    have hself := (h _ List.mem_cons_self).1
    obtain rfl : kind = .branch := (hself.branches rfl).2 _ List.mem_cons_self
    obtain rfl : kind₂ = .branch :=
      (hself.branches rfl).2 _ (List.mem_cons_of_mem _ List.mem_cons_self)
    simp only [chainNode, reached, reachedAll, List.append_nil, List.forall_mem_cons,
      List.forall_mem_append, List.cons_append] at h ⊢
    have hbody := surplus_chain hpad (d + 1) cs (hself.first rfl _ rfl).items h.2.2.1
    have hother := surplus_chain hpad (d + 1) ds (fun c hc => Or.inl (hself.second rfl _ rfl c hc))
      h.2.2.2.2
    have hslot := surplus_slot (surplus_conditions h.2.2.1)
    have hif : surplus ifMark = 1 := by decide
    have helse : surplus elseMark = 0 := by decide
    have hend : surplus endMark = 0 := by decide
    rw [countOpen_conditional _ rfl rfl, countOpen_skip _ (by simp [Node.kind]), countOpen_append,
      countOpen_skip _ (by simp [Node.kind])]
    simp only [surplus_append, surplus_newLine hpad, hif, helse, hend, hbody, hother, Node.children]
    omega
  | d, .mk .conditional tag space attrs (_ :: _ :: _ :: _), _, h => by
    have hlen := (h _ List.mem_cons_self).1.branches rfl
    simp [Node.children] at hlen
  | d, .mk .step tag space attrs children, _, h => by
    have hself := h _ List.mem_cons_self
    simp only [chainNode, reached]
    rw [countOpen_skip _ (by simp [Node.kind])]
    by_cases hw : o.faultHandlers.contains (Node.mk .step tag space attrs children).tag
    · rw [if_pos hw]
      rfl
    · rw [if_neg hw]
      obtain ⟨type, ht⟩ := hself.1.type_ok rfl (by simpa using hw)
      rw [ht]
      change surplus (newLine pad d (stepCall type)) = 0
      rw [surplus_newLine hpad, surplus_stepCall]
      exact hself.2.step (by simpa [isWritten, Node.kind] using hw) type (by rw [ht]; rfl)
  | d, .mk .condition tag space attrs children, _, _ => by
    simp only [chainNode, reached]
    rw [countOpen_skip _ (by simp [Node.kind])]
    rfl
  | d, .mk .branch tag space attrs children, hn, _ => by
    simp [IsActivity, Node.kind] at hn
  | d, .mk .unknown tag space attrs children, hn, _ => by
    simp [IsActivity, Node.kind] at hn

/-- The chain of activities opens a parenthesis more than it closes for each conditional whose first
branch leaves its place. -/
theorem surplus_chain (hpad : ∀ d, surplus (pad d) = 0) : ∀ (d : Int) (ns : List Node),
    (∀ n ∈ ns, IsActivity n ∨ n.kind = .condition) → (∀ x ∈ reachedAll d ns, Even o b x) →
    surplus (chain pad o b d ns) = countOpen o (reachedAll d ns)
  | d, [], _, _ => rfl
  | d, n :: ns, hn, h => by
    rw [reachedAll, List.forall_mem_append] at h
    rw [List.forall_mem_cons] at hn
    rw [chain, reachedAll, surplus_append, countOpen_append, surplus_chainNode hpad d n hn.1 h.1,
      surplus_chain hpad d ns hn.2 h.2]
    push_cast
    rfl

end

end Chain

/-! ## Expressions -/

/-- **The parentheses of an expression.** Over a balanced receiver and balanced names, an expression
opens as many parentheses more than it closes as there are conditionals among the activities that are
reached whose first branch gives no name and has a conditional as its first activity. -/
theorem surplus_of_expression (o : Options) (b : Bindings) (root : Node) (e : Expression)
    (h : expression o ⟨some root, b⟩ = .ok e) (hreceiver : surplus o.receiver = 0)
    (hnames : ∀ x ∈ reached o.baseDepth root, Matched o b x.2) :
    surplus e.text = (reached o.baseDepth root).countP (leavesOpen o ·.2) ∧
    (surplus e.text = 0 ↔ ∀ x ∈ reached o.baseDepth root, leavesOpen o x.2 = false) := by
  obtain ⟨hk, -, p, hp, rfl⟩ := (expression_ok_iff_lowers o b root e).1 h
  obtain ⟨kind, tag, space, attrs, children⟩ := root
  obtain rfl : kind = .sequence := hk
  obtain ⟨hactivities, hsound⟩ := (succeeds_lowerNodes o b o.baseDepth _ children).1 ⟨p, hp⟩
  have heven : ∀ x ∈ reachedAll o.baseDepth children, Even o b x := fun x hx =>
    ⟨(hsound x hx).1, hnames x (List.mem_cons_of_mem _ hx)⟩
  have hcount : surplus (ofText o.receiver ++ p).text
      = countOpen o (reached o.baseDepth (.mk .sequence tag space attrs children)) := by
    simp only [reached]
    rw [countOpen_skip _ (by simp [Node.kind]), Expression.text_append,
      (lowerNodes_accounts o b o.baseDepth _ children p hp).text, surplus_append]
    have hpad : ∀ d, surplus (wrappedPad o d) = 0 := fun _ => surplus_spaces _
    change surplus o.receiver + surplus (chain (wrappedPad o) o b o.baseDepth children) = _
    rw [hreceiver, surplus_chain hpad _ _ (fun n hn => Or.inl (hactivities n hn)) heven]
    exact Int.zero_add _
  refine ⟨hcount, ?_⟩
  rw [hcount, countOpen, Int.natCast_eq_zero, List.countP_eq_zero]
  simp only [Bool.not_eq_true]

/-- A conditional without a condition of its own, whose first activity is another one; the walk begins
above the top. -/
def unsettled : Node :=
  .mk .sequence "S" [] []
    [.mk .conditional "C" [] []
      [.mk .branch "B" [] []
        [.mk .conditional "C" [] []
          [.mk .branch "D" [] [] [.mk .condition "K" [] [("Condition", "Ready")] []]],
         .mk .step "A" [] [] []]]]

theorem surplus_of_unsettled :
    (∀ x ∈ reached (-4) unsettled, Matched ⟨"f()", -4, 0, "Condition", [], false⟩ [] x.2) ∧
    ∃ e, expression ⟨"f()", -4, 0, "Condition", [], false⟩ ⟨some unsettled, []⟩ = .ok e ∧
      e.text = "f()\n.If(() => \n.If(() => Ready())\n.EndIf()\n.Do<A>()\n.EndIf()" ∧
      surplus e.text = 1 := by
  have hnames : ∀ x ∈ reached (-4) unsettled,
      Matched ⟨"f()", -4, 0, "Condition", [], false⟩ [] x.2 := by decide +kernel
  have h : expression ⟨"f()", -4, 0, "Condition", [], false⟩ ⟨some unsettled, []⟩
      = .ok ⟨"f()\n.If(() => \n.If(() => Ready())\n.EndIf()\n.Do<A>()\n.EndIf()", [], 1, 2⟩ := by
    rw [unsettled]
    repeat rw [Bytes.ofString_ofList]
    decide +kernel
  have hcount : (reached (-4) unsettled).countP
      (leavesOpen ⟨"f()", -4, 0, "Condition", [], false⟩ ·.2) = 1 := by decide +kernel
  exact ⟨hnames, _, h, rfl,
    (surplus_of_expression _ _ _ _ h (by decide) hnames).1.trans (congrArg _ hcount)⟩

/-- A step with the same conditional below it, which the walk does not reach. -/
def terminal : Node := .mk .sequence "S" [] [] [.mk .step "A" [] [] unsettled.children]

/-- What is below a step leaves no parenthesis open. -/
theorem surplus_of_unreached : ¬ ∀ (o : Options) (b : Bindings) (root : Node) (e : Expression),
    expression o ⟨some root, b⟩ = .ok e → surplus o.receiver = 0 →
    (∀ n ∈ root.every, Matched o b n) → surplus e.text = root.every.countP (leavesOpen o ·) := by
  intro hall
  have h : expression ⟨"f", 0, 0, "Condition", [], false⟩ ⟨some terminal, []⟩
      = .ok ⟨"f\n.Do<A>()", [], 1, 0⟩ := by decide
  have hnames : ∀ n ∈ terminal.every, Matched ⟨"f", 0, 0, "Condition", [], false⟩ [] n := by
    decide +kernel
  have hcount : terminal.every.countP (leavesOpen ⟨"f", 0, 0, "Condition", [], false⟩ ·) = 1 := by
    decide +kernel
  have hzero : surplus ("f\n.Do<A>()" : Bytes) = 0 := by decide
  have hopen := hall _ _ _ _ h (by decide) hnames
  rw [hcount] at hopen
  exact absurd (hzero.symm.trans hopen) (by decide)

end Flowsmith.Flow
