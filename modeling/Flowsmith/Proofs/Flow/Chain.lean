import Flowsmith.Proofs.Flow.Lowering

/-!
# The chain of a definition

What the text of an expression is, read off the tree alone. A step is one line at its depth, a
sequence is the chain of its activities, and a conditional is its mark with the place of the
condition, the chain of the first branch one level deeper, the second branch likewise, and the
closing mark.

* `chain` : the text of activities at a depth, when lines are indented by `pad`;
* `slot` : what stands in the place of the condition of a first branch;
* `reached` : the activities that a definition is made of, in order, with their depths;
* `chain_eq_of_expression` : an expression is the receiver with the chain of its definition, and its
  counts and warnings are those of the activities that are reached.
-/

namespace Flowsmith.Flow

open Definition (Node Kind Bindings)
open Expression (blank ofText)

/-! ## The text -/

/-- The spaces in front of a line at a depth: the product of depth and width. -/
def exactPad (o : Options) (d : Int) : Bytes := Bytes.spaces (d * o.indentWidth).toNat

/-- The spaces in front of a line at a depth: the product of depth and width as a 64-bit integer. -/
def wrappedPad (o : Options) (d : Int) : Bytes :=
  Bytes.spaces (Int.bmod (d * o.indentWidth) (twoTo 64)).toNat

def newLine (pad : Int → Bytes) (d : Int) (s : Bytes) : Bytes := [Bytes.newline] ++ pad d ++ s

def leading (cs : List Node) : List Node := cs.takeWhile (·.kind = .condition)

/-- The name that the last of the conditions at the beginning gives, empty when there is none. -/
def givenName (o : Options) (cs : List Node) : Bytes :=
  ((leading cs).getLast?.map (nameOf o)).getD []

/-- Whether the first activity of a branch that is no condition is a conditional. -/
def leadsToConditional (cs : List Node) : Bool :=
  (cs.find? (·.kind ≠ .condition)).any (·.kind = .conditional)

/-- Whether the place of the condition stays empty. -/
def lacksCondition (o : Options) (cs : List Node) : Bool :=
  (givenName o cs).isEmpty && !leadsToConditional cs

/-- What stands in the place of the condition of a first branch: a call of the name that is given,
nothing when a conditional takes the place, and else only what closes it. -/
def slot (o : Options) (cs : List Node) : Bytes :=
  if !(givenName o cs).isEmpty then givenName o cs ++ ("())" : Bytes)
  else if leadsToConditional cs then []
  else ")"

mutual

def chainNode (pad : Int → Bytes) (o : Options) (b : Bindings) (d : Int) : Node → Bytes
  | .mk kind tag space attrs children =>
    let n := Node.mk kind tag space attrs children
    match kind with
    | .sequence => chain pad o b d children
    | .conditional =>
      match children with
      | [] => []
      | .mk _ _ _ _ cs :: rest =>
        newLine pad d ifMark ++ slot o cs ++ chain pad o b (d + 1) cs
          ++ (match rest with
            | [] => []
            | .mk _ _ _ _ ds :: _ => newLine pad d elseMark ++ chain pad o b (d + 1) ds)
          ++ newLine pad d endMark
    | .step =>
      if o.faultHandlers.contains n.tag then []
      else match stepType b n with
        | .ok type => newLine pad d (stepCall type)
        | .error _ => []
    | _ => []

/-- The text of activities at a depth; a condition has none. -/
def chain (pad : Int → Bytes) (o : Options) (b : Bindings) (d : Int) : List Node → Bytes
  | [] => []
  | n :: ns => chainNode pad o b d n ++ chain pad o b d ns

end

/-- The chain of a branch is that of its activities that are no conditions. -/
theorem chain_filter (pad : Int → Bytes) (o : Options) (b : Bindings) (d : Int) (cs : List Node) :
    chain pad o b d (cs.filter (·.kind ≠ .condition)) = chain pad o b d cs := by
  induction cs with
  | nil => rfl
  | cons n ns ih =>
    obtain ⟨kind, tag, space, attrs, children⟩ := n
    by_cases h : kind = .condition
    · subst h
      rw [List.filter_cons_of_neg (by simp [Node.kind]), ih, chain]
      rfl
    · rw [List.filter_cons_of_pos (by simp [Node.kind, h]), chain, chain, ih]

/-! ## The activities -/

mutual

/-- An activity and the activities that are reached from it through sequences, conditionals and
branches, with their depths; what is in a branch is one level deeper. -/
def reached (d : Int) : Node → List (Int × Node)
  | .mk kind tag space attrs children =>
    (d, .mk kind tag space attrs children) ::
      match kind with
      | .sequence => reachedAll d children
      | .conditional => reachedAll d children
      | .branch => reachedAll (d + 1) children
      | _ => []

def reachedAll (d : Int) : List Node → List (Int × Node)
  | [] => []
  | n :: ns => reached d n ++ reachedAll d ns

end

def isWritten (o : Options) (n : Node) : Bool := n.kind = .step && !o.faultHandlers.contains n.tag

/-- The warning about a conditional whose first branch lacks a condition. -/
def ownWarning (o : Options) (n : Node) : List Bytes :=
  match n.kind, n.children with
  | .conditional, first :: _ =>
    if lacksCondition o first.children then [missingWarning first.id] else []
  | _, _ => []

/-! ## Pieces and activities -/

/-- A piece has the text `s`, and its counts and warnings are those of the activities `xs`. -/
structure Accounts (o : Options) (s : Bytes) (xs : List (Int × Node)) (p : Expression) : Prop where
  text : p.text = s
  steps : p.steps = xs.countP (isWritten o ·.2)
  conditionals : p.conditionals = xs.countP (·.2.kind = .conditional)
  warnings : p.warnings = xs.flatMap (ownWarning o ·.2)

theorem Accounts.nil (o : Options) : Accounts o [] [] blank := ⟨rfl, rfl, rfl, rfl⟩

theorem Accounts.append {o : Options} {s t : Bytes} {xs ys : List (Int × Node)} {p q : Expression}
    (hp : Accounts o s xs p) (hq : Accounts o t ys q) : Accounts o (s ++ t) (xs ++ ys) (p ++ q) where
  text := by rw [Expression.text_append, hp.text, hq.text]
  steps := by rw [Expression.steps_append, hp.steps, hq.steps, List.countP_append]
  conditionals := by
    rw [Expression.conditionals_append, hp.conditionals, hq.conditionals, List.countP_append]
  warnings := by
    rw [Expression.warnings_append, hp.warnings, hq.warnings, List.flatMap_append]

theorem Accounts.skip {o : Options} {s : Bytes} {xs : List (Int × Node)} {p : Expression} {n : Node}
    (d : Int) (hn : n.kind = .branch ∨ n.kind = .condition) (hp : Accounts o s xs p) :
    Accounts o s ((d, n) :: xs) p where
  text := hp.text
  steps := by
    rw [List.countP_cons_of_neg (by rcases hn with h | h <;> simp [isWritten, h]), hp.steps]
  conditionals := by
    rw [List.countP_cons_of_neg (by rcases hn with h | h <;> simp [h]), hp.conditionals]
  warnings := by
    have h : ownWarning o n = [] := by
      unfold ownWarning
      rcases hn with h | h <;> rw [h]
    rw [List.flatMap_cons, h, List.nil_append, hp.warnings]

theorem newLine_of_padding {o : Options} {d : Int} {pad : Bytes}
    (h : padding? o.indentWidth d = some pad) (s : Bytes) :
    [Bytes.newline] ++ pad ++ s = newLine (wrappedPad o) d s := by
  unfold padding? at h
  dsimp only at h
  split at h
  · cases h
    rfl
  · cases h

theorem lineAt_eq_ok {o : Options} {d : Int} {s : Bytes} {p : Expression}
    (h : lineAt o d s = .ok p) : p = ofText (newLine (wrappedPad o) d s) := by
  unfold lineAt at h
  split at h
  · rename_i pad hpad
    cases h
    rw [newLine_of_padding hpad]
  · cases h

theorem Accounts.line {o : Options} {d : Int} {s : Bytes} {p : Expression}
    (h : lineAt o d s = .ok p) : Accounts o (newLine (wrappedPad o) d s) [] p := by
  rw [lineAt_eq_ok h]
  exact ⟨rfl, rfl, rfl, rfl⟩

theorem Accounts.step {o : Options} {b : Bindings} {d : Int} {n : Node} {p : Expression}
    (hk : n.kind = .step) (h : lowerStep o b d n = .ok p) :
    Accounts o (chainNode (wrappedPad o) o b d n) (reached d n) p := by
  obtain ⟨kind, tag, space, attrs, children⟩ := n
  simp only [Node.kind] at hk
  subst hk
  unfold lowerStep at h
  split at h
  · rename_i hf
    cases h
    refine ⟨?_, ?_, ?_, ?_⟩
    · simp only [chainNode]
      rw [if_pos hf]
      rfl
    all_goals simp_all [reached, isWritten, Node.kind, ownWarning, blank]
  · rename_i hf
    cases ht : stepType b (Node.mk .step tag space attrs children) with
    | error f =>
      rw [ht] at h
      cases h
    | ok type =>
      rw [ht] at h
      cases hl : lineAt o d (stepCall type) with
      | error f =>
        simp only [hl, bind, Except.bind] at h
        cases h
      | ok q =>
        simp only [hl, bind, Except.bind, pure, Except.pure, Except.ok.injEq] at h
        subst h
        have hq := lineAt_eq_ok hl
        subst hq
        refine ⟨?_, ?_, ?_, ?_⟩
        · simp only [chainNode]
          rw [if_neg hf, ht]
          rfl
        all_goals simp_all [reached, isWritten, Node.kind, ownWarning, ofText]

theorem lowerNodes_no_condition {o : Options} {b : Bindings} {d : Int} {stray : Node → Fault} :
    ∀ {ns : List Node} {p : Expression}, lowerNodes o b d stray ns = .ok p →
      ∀ n ∈ ns, n.kind ≠ .condition
  | [], _, _, n, hn => absurd hn List.not_mem_nil
  | m :: ms, p, h, n, hn => by
    rw [lowerNodes] at h
    obtain ⟨q, r, hq, hr, -⟩ := join_eq_ok h
    rcases List.mem_cons.1 hn with rfl | hn
    · intro hk
      rw [if_pos hk] at hq
      cases hq
    · exact lowerNodes_no_condition hr n hn

/-! ## The place of the condition -/

theorem slot_of_no_condition {o : Options} {n : Node} (ns : List Node) (hn : n.kind ≠ .condition) :
    givenName o (n :: ns) = [] ∧ leadsToConditional (n :: ns) = decide (n.kind = .conditional) := by
  constructor
  · simp [givenName, leading, hn]
  · simp [leadsToConditional, hn]

/-- A condition without a name leaves the place to what follows it. -/
theorem givenName_of_unnamed {o : Options} {n : Node} (ns : List Node) (hk : n.kind = .condition)
    (hn : nameOf o n = []) : givenName o (n :: ns) = givenName o ns := by
  have hcons : leading (n :: ns) = n :: leading ns := by simp [leading, hk]
  unfold givenName
  rw [hcons]
  cases hl : leading ns with
  | nil => simp [hn]
  | cons m ms => simp

theorem leadsToConditional_of_condition {n : Node} (ns : List Node) (hk : n.kind = .condition) :
    leadsToConditional (n :: ns) = leadsToConditional ns := by
  simp [leadsToConditional, hk]

theorem givenName_of_last {o : Options} {n : Node} {ns : List Node} (hk : n.kind = .condition)
    (hns : ∀ m ∈ ns, m.kind ≠ .condition) : givenName o (n :: ns) = nameOf o n := by
  have hnil : leading ns = [] := by
    cases ns with
    | nil => rfl
    | cons m ms => simp [leading, hns m (by simp)]
  have hcons : leading (n :: ns) = n :: leading ns := by simp [leading, hk]
  simp [givenName, hcons, hnil]

/-- What fills the place of the condition of the branch `id`. -/
def slotPiece (o : Options) (id : Bytes) (cs : List Node) : Expression :=
  ⟨slot o cs, if lacksCondition o cs then [missingWarning id] else [], 0, 0⟩

theorem slotPiece_congr {o : Options} {cs ds : List Node} (id : Bytes)
    (hg : givenName o cs = givenName o ds) (hl : leadsToConditional cs = leadsToConditional ds) :
    slotPiece o id cs = slotPiece o id ds := by
  unfold slotPiece slot lacksCondition
  rw [hg, hl]

theorem slotPiece_of_missing {o : Options} {id : Bytes} {cs : List Node} {p : Expression}
    (h : lowerMissing o id = .ok p) (hg : givenName o cs = []) (hl : leadsToConditional cs = false) :
    slotPiece o id cs = p := by
  unfold lowerMissing at h
  split at h
  · cases h
  · cases h
    simp [slotPiece, slot, lacksCondition, hg, hl]

theorem slotPiece_of_name {o : Options} {id name : Bytes} {cs : List Node}
    (hg : givenName o cs = name) (hname : name ≠ []) :
    slotPiece o id cs = ofText (name ++ ("())" : Bytes)) := by
  simp [slotPiece, slot, lacksCondition, hg, hname, ofText]

theorem slotPiece_of_conditional {o : Options} {id : Bytes} {cs : List Node}
    (hg : givenName o cs = []) (hl : leadsToConditional cs = true) :
    slotPiece o id cs = blank := by
  simp [slotPiece, slot, lacksCondition, hg, hl, blank]

/-! ## The induction -/

theorem lowerBranch_first {o : Options} {b : Bindings} {d : Int} {n : Node} {p : Expression}
    (h : lowerBranch o b d true n = .ok p) :
    ∃ mark q, lineAt o d ifMark = .ok mark ∧ lowerSlot o b (d + 1) n.id n.children = .ok q ∧
      p = mark ++ q := by
  obtain ⟨kind, tag, space, attrs, children⟩ := n
  exact join_eq_ok h

theorem lowerBranch_second {o : Options} {b : Bindings} {d : Int} {n : Node} {p : Expression}
    (h : lowerBranch o b d false n = .ok p) :
    ∃ mark q, lineAt o d elseMark = .ok mark ∧
      lowerNodes o b (d + 1) (fun _ => surplusCondition false n.id) n.children = .ok q ∧
      p = mark ++ q := by
  obtain ⟨kind, tag, space, attrs, children⟩ := n
  exact join_eq_ok h

theorem lowerNode_conditional {o : Options} {b : Bindings} {d : Int} {n : Node} {p : Expression}
    (hk : n.kind = .conditional) (h : lowerNode o b d n = .ok p) :
    ∃ q last, checkBranches n.id n.children = .ok () ∧
      lowerBranches o b d true n.children = .ok q ∧ lineAt o d endMark = .ok last ∧
      p = { q ++ last with conditionals := (q ++ last).conditionals + 1 } := by
  obtain ⟨kind, tag, space, attrs, children⟩ := n
  simp only [Node.kind] at hk
  subst hk
  simp only [lowerNode] at h
  cases hc : checkBranches (Node.mk .conditional tag space attrs children).id children with
  | error f =>
    rw [hc] at h
    cases h
  | ok u =>
    rw [hc] at h
    change (join _ _ >>= _) = _ at h
    cases hj : join (lowerBranches o b d true children) (lineAt o d endMark) with
    | error f =>
      rw [hj] at h
      cases h
    | ok r =>
      rw [hj] at h
      obtain ⟨q, last, hq, hlast, rfl⟩ := join_eq_ok hj
      cases h
      exact ⟨q, last, hc, hq, hlast, rfl⟩

/-- A conditional from its parts: the mark, the place of the condition and the rest of the first
branch, the second branch if there is one, and the closing mark. -/
theorem Accounts.conditional {o : Options} {n : Node} {rest : List Node} {s t u v : Bytes}
    {xs ys : List (Int × Node)} {mark q r last : Expression} (d : Int) (first : Node)
    (hk : n.kind = .conditional)
    (hn : n.children = first :: rest) (hf : first.kind = .branch) (hmark : Accounts o s [] mark)
    (hq : Accounts o t xs q) (hr : Accounts o u ys r) (hlast : Accounts o v [] last) :
    Accounts o (s ++ slot o first.children ++ t ++ u ++ v) ((d, n) :: (d, first) :: (xs ++ ys))
      { mark ++ (slotPiece o first.id first.children ++ q) ++ r ++ last with
        conditionals := (mark ++ (slotPiece o first.id first.children ++ q) ++ r ++ last).conditionals + 1 } where
  text := by simp [hmark.text, hq.text, hr.text, hlast.text, slotPiece]
  steps := by
    simp [hmark.steps, hq.steps, hr.steps, hlast.steps, slotPiece, isWritten, hk, hf]
  conditionals := by
    simp [hmark.conditionals, hq.conditionals, hr.conditionals, hlast.conditionals, slotPiece, hk, hf]
  warnings := by
    simp [hmark.warnings, hq.warnings, hr.warnings, hlast.warnings, slotPiece, ownWarning, hk, hn, hf]

mutual

theorem lowerNode_accounts (o : Options) (b : Bindings) : ∀ (d : Int) (n : Node) (p : Expression),
    lowerNode o b d n = .ok p → Accounts o (chainNode (wrappedPad o) o b d n) (reached d n) p
  | d, .mk .sequence tag space attrs children, p, h => by
    simp only [lowerNode] at h
    have hp := lowerNodes_accounts o b d _ children p h
    refine ⟨hp.text, ?_, ?_, ?_⟩
    · simp [reached, isWritten, Node.kind, hp.steps]
    · simp [reached, Node.kind, hp.conditionals]
    · simp [reached, ownWarning, Node.kind, hp.warnings]
  | d, .mk .conditional tag space attrs [], p, h => by
    obtain ⟨q, last, hc, -⟩ := lowerNode_conditional rfl h
    simpa [Node.children] using (checkBranches_ok hc).2
  | d, .mk .conditional tag space attrs [.mk kind tag₁ space₁ attrs₁ cs], p, h => by
    obtain ⟨q, last, hc, hq, hlast, rfl⟩ := lowerNode_conditional rfl h
    obtain rfl : kind = .branch := (checkBranches_ok hc).1 _ List.mem_cons_self
    obtain ⟨first, none, hfirst, hnone, rfl⟩ := join_eq_ok hq
    cases hnone
    obtain ⟨mark, inner, hmark, hinner, rfl⟩ := lowerBranch_first hfirst
    obtain ⟨t, rfl, ht⟩ := lowerSlot_accounts o b (d + 1) _ cs inner hinner
    exact Accounts.conditional d (.mk .branch tag₁ space₁ attrs₁ cs) rfl rfl rfl
      (Accounts.line hmark) ht (Accounts.nil o) (Accounts.line hlast)
  | d, .mk .conditional tag space attrs
      [.mk kind tag₁ space₁ attrs₁ cs, .mk kind₂ tag₂ space₂ attrs₂ ds], p, h => by
    obtain ⟨q, last, hc, hq, hlast, rfl⟩ := lowerNode_conditional rfl h
    obtain rfl : kind = .branch := (checkBranches_ok hc).1 _ List.mem_cons_self
    obtain rfl : kind₂ = .branch :=
      (checkBranches_ok hc).1 _ (List.mem_cons_of_mem _ List.mem_cons_self)
    obtain ⟨first, rest, hfirst, hrest, rfl⟩ := join_eq_ok hq
    obtain ⟨second, none, hsecond, hnone, rfl⟩ := join_eq_ok hrest
    cases hnone
    obtain ⟨mark, inner, hmark, hinner, rfl⟩ := lowerBranch_first hfirst
    obtain ⟨t, rfl, ht⟩ := lowerSlot_accounts o b (d + 1) _ cs inner hinner
    obtain ⟨mark₂, u, hmark₂, hu, rfl⟩ := lowerBranch_second hsecond
    have hu := lowerNodes_accounts o b (d + 1) _ ds u hu
    have hrest := ((Accounts.line hmark₂).append hu).skip d
      (n := .mk .branch tag₂ space₂ attrs₂ ds) (Or.inl rfl)
    exact Accounts.conditional d (.mk .branch tag₁ space₁ attrs₁ cs) rfl rfl rfl
      (Accounts.line hmark) ht (by simpa [reachedAll, reached] using hrest) (Accounts.line hlast)
  | d, .mk .conditional tag space attrs (_ :: _ :: _ :: _), p, h => by
    obtain ⟨q, last, hc, -⟩ := lowerNode_conditional rfl h
    simpa [Node.children] using (checkBranches_ok hc).2
  | d, .mk .step tag space attrs children, p, h => Accounts.step rfl h
  | d, .mk .branch tag space attrs children, p, h => by
    simp only [lowerNode] at h
    cases h
  | d, .mk .condition tag space attrs children, p, h => by
    simp only [lowerNode] at h
    cases h
  | d, .mk .unknown tag space attrs children, p, h => by
    simp only [lowerNode] at h
    cases h

theorem lowerNodes_accounts (o : Options) (b : Bindings) : ∀ (d : Int) (stray : Node → Fault)
    (ns : List Node) (p : Expression), lowerNodes o b d stray ns = .ok p →
    Accounts o (chain (wrappedPad o) o b d ns) (reachedAll d ns) p
  | d, stray, [], p, h => by
    cases h
    exact Accounts.nil o
  | d, stray, n :: ns, p, h => by
    have hk := lowerNodes_no_condition h n (by simp)
    rw [lowerNodes, if_neg hk] at h
    obtain ⟨q, r, hq, hr, rfl⟩ := join_eq_ok h
    exact (lowerNode_accounts o b d n q hq).append (lowerNodes_accounts o b d stray ns r hr)

theorem lowerSlot_accounts (o : Options) (b : Bindings) : ∀ (d : Int) (id : Bytes) (ns : List Node)
    (p : Expression), lowerSlot o b d id ns = .ok p →
    ∃ q, p = slotPiece o id ns ++ q ∧ Accounts o (chain (wrappedPad o) o b d ns) (reachedAll d ns) q
  | d, id, [], p, h => by
    rw [lowerSlot] at h
    exact ⟨blank, by rw [slotPiece_of_missing h rfl rfl, Expression.append_blank], Accounts.nil o⟩
  | d, id, n :: ns, p, h => by
    rw [lowerSlot] at h
    by_cases hk : n.kind = .condition
    · -- a condition adds nothing itself, so only the place of the condition is looked at
      have hskip : ∀ {q}, Accounts o (chain (wrappedPad o) o b d ns) (reachedAll d ns) q →
          Accounts o (chain (wrappedPad o) o b d (n :: ns)) (reachedAll d (n :: ns)) q := by
        intro q hq
        obtain ⟨kind, tag, space, attrs, children⟩ := n
        simp only [Node.kind] at hk
        subst hk
        exact hq.skip d (Or.inr rfl)
      rw [if_pos hk] at h
      by_cases hname : nameOf o n = []
      · rw [if_pos (by simp [hname])] at h
        obtain ⟨q, rfl, hq⟩ := lowerSlot_accounts o b d id ns p h
        refine ⟨q, ?_, hskip hq⟩
        rw [slotPiece_congr id (givenName_of_unnamed ns hk hname)
          (leadsToConditional_of_condition ns hk)]
      · rw [if_neg (by simpa using hname)] at h
        obtain ⟨q, r, hq, hr, rfl⟩ := join_eq_ok h
        cases hq
        refine ⟨r, ?_, hskip (lowerNodes_accounts o b d _ ns r hr)⟩
        rw [slotPiece_of_name (givenName_of_last hk (lowerNodes_no_condition hr)) hname]
    · obtain ⟨hgiven, hleads⟩ := slot_of_no_condition (o := o) ns hk
      rw [if_neg hk] at h
      obtain ⟨q, r, hq, hr, rfl⟩ := join_eq_ok h
      obtain ⟨s, t, hs, ht, rfl⟩ := join_eq_ok hr
      refine ⟨s ++ t, ?_,
        (lowerNode_accounts o b d n s hs).append (lowerNodes_accounts o b d _ ns t ht)⟩
      by_cases hc : n.kind = .conditional
      · rw [if_pos hc] at hq
        cases hq
        rw [slotPiece_of_conditional hgiven (hleads.trans (decide_eq_true hc))]
      · rw [if_neg hc] at hq
        rw [slotPiece_of_missing hq hgiven (hleads.trans (decide_eq_false hc))]

end

/-- **The text of an expression.** Whatever definition is lowered, the expression is the receiver
with the chain of the root; its steps and conditionals are those that are reached, and it has one
warning for each conditional that is reached whose first branch lacks a condition, in order. -/
theorem chain_eq_of_expression (o : Options) (b : Bindings) (root : Node) (e : Expression)
    (hk : root.kind = .sequence) (hd : 0 ≤ o.baseDepth)
    (h : expression o ⟨some root, b⟩ = .ok e) :
    e.text = o.receiver ++ chain (wrappedPad o) o b o.baseDepth root.children ∧
    e.steps = (reached o.baseDepth root).countP (isWritten o ·.2) ∧
    e.conditionals = (reached o.baseDepth root).countP (·.2.kind = .conditional) ∧
    e.warnings = (reached o.baseDepth root).flatMap (ownWarning o ·.2) := by
  rw [expression_eq o b root hd hk] at h
  obtain ⟨p, q, hp, hq, rfl⟩ := join_eq_ok h
  cases hp
  have hroot : lowerNode o b o.baseDepth root = .ok q := by
    obtain ⟨kind, tag, space, attrs, children⟩ := root
    simp only [Node.kind] at hk
    subst hk
    exact hq
  have ha := lowerNode_accounts o b o.baseDepth root q hroot
  refine ⟨?_, ?_, ?_, ?_⟩
  · rw [Expression.text_append, (lowerNodes_accounts o b _ _ _ q hq).text]
    rfl
  · rw [← ha.steps, Expression.steps_append]
    exact Nat.zero_add _
  · rw [← ha.conditionals, Expression.conditionals_append]
    exact Nat.zero_add _
  · rw [← ha.warnings]
    rfl

/-- A conditional with a named condition, whose second branch is a conditional without one. -/
def forked : Node :=
  .mk .sequence "S" [] []
    [.mk .conditional "C" [] []
      [.mk .branch "B" [] []
        [.mk .condition "K" [] [("Condition", " Ready ")] [], .mk .step "A" [] [] []],
       .mk .branch "B" [] [] [.mk .conditional "C" [] [] [.mk .branch "D" [] [] []]]]]

theorem chain_eq_of_forked_expression :
    ∃ e, expression ⟨"f", 1, 2, "Condition", [], false⟩ ⟨some forked, []⟩ = .ok e ∧
      e.text = "f" ++ chain (wrappedPad ⟨"f", 1, 2, "Condition", [], false⟩)
        ⟨"f", 1, 2, "Condition", [], false⟩ [] 1 forked.children ∧
      e.text = "f\n  .If(() => Ready())\n    .Do<A>()\n  .Else()\n    .If(() => )\n    .EndIf()\n  .EndIf()"
      := by
  have h : expression ⟨"f", 1, 2, "Condition", [], false⟩ ⟨some forked, []⟩
      = .ok ⟨"f\n  .If(() => Ready())\n    .Do<A>()\n  .Else()\n    .If(() => )\n    .EndIf()\n  .EndIf()",
          ["branch D has no condition, emitted an empty .If(() => )"], 1, 2⟩ := by
    rw [forked]
    repeat rw [Bytes.ofString_ofList]
    decide +kernel
  exact ⟨_, h, (chain_eq_of_expression _ _ _ _ rfl (by decide) h).1, rfl⟩

def oneStep : Node := .mk .sequence "S" [] [] [.mk .step "A" [] [] []]

/-- Options under which the product of depth and width is `2 ^ 64` on the first line. -/
def endless : Options := ⟨"f", 4294967296, 4294967296, "Condition", [], false⟩

theorem length_exactPad (o : Options) (d : Int) :
    (exactPad o d).length = (d * o.indentWidth).toNat := List.length_replicate

/-- The indentation is not the product of depth and width once that leaves 64 bits. -/
theorem exact_chain_ne_of_overflow :
    ∃ e, expression endless ⟨some oneStep, []⟩ = .ok e ∧
      e.text ≠ endless.receiver
        ++ chain (exactPad endless) endless [] endless.baseDepth oneStep.children := by
  refine ⟨⟨"f\n.Do<A>()", [], 1, 0⟩, by decide, fun h => ?_⟩
  have hchain : ∀ pad, chain pad endless [] endless.baseDepth oneStep.children
      = [Bytes.newline] ++ pad endless.baseDepth ++ stepCall "A" := fun pad => List.append_nil _
  rw [hchain] at h
  have htext : (Bytes.ofString "f\n.Do<A>()").length = 10 := by decide
  have hpad := length_exactPad endless endless.baseDepth
  have hwidth : (endless.baseDepth * endless.indentWidth).toNat = 18446744073709551616 := rfl
  have hlen := htext.symm.trans (congrArg List.length h)
  simp only [List.length_append] at hlen
  omega

end Flowsmith.Flow
