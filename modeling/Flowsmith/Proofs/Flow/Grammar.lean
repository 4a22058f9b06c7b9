import Flowsmith.Proofs.Flow.Chain

/-!
# Which definitions have an expression

The walk over a definition rejects what it meets at the wrong place. Here the definitions that it
accepts are said as conditions on the activities that are reached, each on its own: what may stand
below a sequence, a conditional and its branches, which steps must be resolved, and, for strict
options, which first branches must have a condition.

* `Allowed` : the conditions on one activity;
* `LaidOut` : every line has an indentation that can be written;
* `expression_ok_iff` : a definition has an expression exactly when all activities that are reached
  are allowed and every line is laid out; the faults of the others have one of three codes.
-/

namespace Flowsmith.Flow

open Definition (Node Kind Bindings)
open Expression (blank ofText)

/-! ## The grammar -/

def IsActivity (n : Node) : Prop := n.kind = .sequence ∨ n.kind = .conditional ∨ n.kind = .step

/-- What may stand in a first branch: conditions, of which only the last gives a name, and then
activities. -/
def OpensBranch (o : Options) (cs : List Node) : Prop :=
  ∃ conditions activities, cs = conditions ++ activities ∧
    (∀ c ∈ conditions, c.kind = .condition) ∧ (∀ c ∈ activities, IsActivity c) ∧
    ∀ c ∈ conditions.dropLast, nameOf o c = []

/-- A first branch has a named condition, or its first activity is a conditional. -/
def HasCondition (o : Options) (cs : List Node) : Prop :=
  (∃ c ∈ cs, c.kind = .condition ∧ nameOf o c ≠ []) ∨
  ∃ c, cs.find? (·.kind ≠ .condition) = some c ∧ c.kind = .conditional

/-- The conditions on an activity that is reached. -/
structure Allowed (o : Options) (b : Bindings) (n : Node) : Prop where
  /-- What is in a sequence is an activity. -/
  inside : n.kind = .sequence → ∀ c ∈ n.children, IsActivity c
  /-- A conditional has one or two branches and nothing else. -/
  branches : n.kind = .conditional →
    (n.children.length = 1 ∨ n.children.length = 2) ∧ ∀ c ∈ n.children, c.kind = .branch
  /-- A first branch begins with its conditions. -/
  first : n.kind = .conditional → ∀ c, n.children[0]? = some c → OpensBranch o c.children
  /-- A second branch is like a sequence. -/
  second : n.kind = .conditional → ∀ c, n.children[1]? = some c → ∀ m ∈ c.children, IsActivity m
  /-- A step that is written and has a prefix belongs to a code namespace. -/
  resolved : n.kind = .step → n.tag ∉ o.faultHandlers → n.space ≠ [] →
    ∃ ns, b.resolve n.space = .ok ns
  /-- No condition is missing when that is a fault. -/
  strict : o.strict = true → n.kind = .conditional → ∀ c, n.children[0]? = some c →
    HasCondition o c.children

/-- Whether an activity begins lines at its own depth. -/
def beginsLines (o : Options) (n : Node) : Bool := n.kind = .conditional || isWritten o n

/-- The lines that an activity begins at a depth can be indented. -/
def Indented (o : Options) (x : Int × Node) : Prop :=
  beginsLines o x.2 = true → (padding? o.indentWidth x.1).isSome = true

def LaidOut (o : Options) (root : Node) : Prop := ∀ x ∈ reached o.baseDepth root, Indented o x

/-- An activity at a depth that the walk gets past. -/
def Sound (o : Options) (b : Bindings) (x : Int × Node) : Prop := Allowed o b x.2 ∧ Indented o x

/-! ## Success of the parts -/

def Succeeds (x : Except Fault Expression) : Prop := ∃ p, x = .ok p

theorem succeeds_ok (p : Expression) : Succeeds (.ok p) := ⟨p, rfl⟩

theorem not_succeeds_error (f : Fault) : ¬ Succeeds (.error f) := by
  rintro ⟨p, h⟩
  cases h

theorem succeeds_join {x y : Except Fault Expression} :
    Succeeds (join x y) ↔ Succeeds x ∧ Succeeds y := by
  constructor
  · rintro ⟨e, h⟩
    obtain ⟨p, q, hp, hq, -⟩ := join_eq_ok h
    exact ⟨⟨p, hp⟩, ⟨q, hq⟩⟩
  · rintro ⟨⟨p, rfl⟩, ⟨q, rfl⟩⟩
    exact ⟨p ++ q, rfl⟩

theorem succeeds_lineAt {o : Options} {d : Int} {s : Bytes} :
    Succeeds (lineAt o d s) ↔ (padding? o.indentWidth d).isSome = true := by
  unfold lineAt
  cases padding? o.indentWidth d with
  | none => simp [not_succeeds_error]
  | some pad => simp [succeeds_ok]

theorem succeeds_lowerMissing {o : Options} {id : Bytes} :
    Succeeds (lowerMissing o id) ↔ o.strict = false := by
  unfold lowerMissing
  cases o.strict with
  | false => simp [succeeds_ok]
  | true => simp [not_succeeds_error]

theorem succeeds_lowerStep {o : Options} {b : Bindings} {d : Int} {n : Node} (hk : n.kind = .step) :
    Succeeds (lowerStep o b d n) ↔ Sound o b (d, n) := by
  have hallowed : Allowed o b n ↔
      (n.tag ∉ o.faultHandlers → n.space ≠ [] → ∃ ns, b.resolve n.space = .ok ns) := by
    refine ⟨fun h => h.resolved hk, fun h => ?_⟩
    constructor <;> simp_all
  unfold Sound Indented
  rw [hallowed]
  unfold lowerStep
  by_cases hf : n.tag ∈ o.faultHandlers
  · simp [hf, succeeds_ok, beginsLines, isWritten, hk]
  · have hwritten : beginsLines o n = true := by simp [beginsLines, isWritten, hk, hf]
    have htype : (∃ type, stepType b n = .ok type) ↔
        (n.space ≠ [] → ∃ ns, b.resolve n.space = .ok ns) := by
      unfold stepType
      by_cases hs : n.space = []
      · simp [hs]
      · cases b.resolve n.space <;> simp [hs]
    rw [if_neg (by simpa using hf)]
    simp only [hf, not_false_eq_true, true_implies, hwritten, ← htype]
    rw [← succeeds_lineAt (s := [])]
    cases hstep : stepType b n with
    | error f => simp [bind, Except.bind, not_succeeds_error]
    | ok type =>
      change Succeeds (lineAt o d (stepCall type) >>= _) ↔ _
      unfold lineAt
      cases padding? o.indentWidth d with
      | none => simp [bind, Except.bind, not_succeeds_error]
      | some pad => simp [bind, Except.bind, pure, Except.pure, succeeds_ok]

theorem sound_of_part {o : Options} {b : Bindings} {d : Int} {n : Node}
    (hk : n.kind = .branch ∨ n.kind = .condition) : Sound o b (d, n) := by
  refine ⟨?_, fun h => ?_⟩
  · constructor <;> rcases hk with hk | hk <;> simp [hk]
  · rcases hk with hk | hk <;> simp [beginsLines, isWritten, hk] at h

/-! ## First branches -/

theorem not_isActivity_condition {n : Node} (hk : n.kind = .condition) : ¬ IsActivity n := by
  simp [IsActivity, hk]

/-- A condition at the beginning of a first branch is one of its conditions. -/
theorem opensBranch_condition {o : Options} {n : Node} {ns : List Node} (hk : n.kind = .condition) :
    OpensBranch o (n :: ns) ↔
      ((∀ c ∈ ns, IsActivity c) ∨ (nameOf o n = [] ∧ OpensBranch o ns)) := by
  constructor
  · rintro ⟨conditions, activities, happ, hc, ha, hn⟩
    match conditions with
    | [] =>
      exact absurd (ha n (by rw [← List.nil_append activities, ← happ]; simp))
        (not_isActivity_condition hk)
    | [c] =>
      obtain ⟨rfl, rfl⟩ := List.cons.inj happ
      exact Or.inl ha
    | c :: c' :: cs =>
      obtain ⟨rfl, rfl⟩ := List.cons.inj happ
      refine Or.inr ⟨hn n (by simp), c' :: cs, activities, rfl, ?_, ha, ?_⟩
      · exact fun m hm => hc m (List.mem_cons_of_mem _ hm)
      · exact fun m hm => hn m (by simp only [List.dropLast_cons_cons]; exact List.mem_cons_of_mem _ hm)
  · rintro (ha | ⟨hn, conditions, activities, rfl, hc, ha, hn'⟩)
    · exact ⟨[n], ns, rfl, by simp [hk], ha, by simp⟩
    · refine ⟨n :: conditions, activities, rfl, ?_, ha, ?_⟩
      · intro c hm
        rcases List.mem_cons.1 hm with rfl | hm
        · exact hk
        · exact hc c hm
      · intro c hm
        cases conditions with
        | nil => simp at hm
        | cons c' cs =>
          simp only [List.dropLast_cons_cons] at hm
          rcases List.mem_cons.1 hm with rfl | hm
          · exact hn
          · exact hn' c hm

theorem opensBranch_activity {o : Options} {n : Node} {ns : List Node} (hk : n.kind ≠ .condition) :
    OpensBranch o (n :: ns) ↔ ∀ c ∈ n :: ns, IsActivity c := by
  constructor
  · rintro ⟨conditions, activities, happ, hc, ha, -⟩
    cases conditions with
    | nil => exact fun c hm => ha c (by rw [← List.nil_append activities, ← happ]; exact hm)
    | cons c cs =>
      obtain ⟨rfl, -⟩ := List.cons.inj happ
      exact absurd (hc n (by simp)) hk
  · intro h
    exact ⟨[], n :: ns, rfl, by simp, h, by simp⟩

theorem hasCondition_named {o : Options} {n : Node} (ns : List Node) (hk : n.kind = .condition)
    (hn : nameOf o n ≠ []) : HasCondition o (n :: ns) := Or.inl ⟨n, by simp, hk, hn⟩

theorem hasCondition_unnamed {o : Options} {n : Node} (ns : List Node) (hk : n.kind = .condition)
    (hn : nameOf o n = []) : HasCondition o (n :: ns) ↔ HasCondition o ns := by
  simp [HasCondition, hk, hn]

/-- Among activities only a conditional at the beginning stands for a condition. -/
theorem hasCondition_activity {o : Options} {n : Node} {ns : List Node}
    (h : ∀ c ∈ n :: ns, IsActivity c) : HasCondition o (n :: ns) ↔ n.kind = .conditional := by
  have hk : n.kind ≠ .condition := fun hk => not_isActivity_condition hk (h n (by simp))
  constructor
  · rintro (⟨c, hm, hc, -⟩ | ⟨c, hf, hc⟩)
    · exact absurd (h c hm) (not_isActivity_condition hc)
    · simp only [List.find?_cons, hk, ne_eq, not_false_eq_true, decide_true] at hf
      obtain rfl := Option.some.inj hf
      exact hc
  · intro hc
    exact Or.inr ⟨n, by simp [hk], hc⟩

/-! ## The induction -/

theorem succeeds_lowerNode_conditional {o : Options} {b : Bindings} {d : Int} {n : Node}
    (hk : n.kind = .conditional) :
    Succeeds (lowerNode o b d n) ↔ checkBranches n.id n.children = .ok () ∧
      Succeeds (lowerBranches o b d true n.children) ∧ Succeeds (lineAt o d endMark) := by
  rw [← succeeds_join]
  constructor
  · rintro ⟨p, h⟩
    obtain ⟨q, last, hc, hq, hlast, -⟩ := lowerNode_conditional hk h
    exact ⟨hc, q ++ last, by rw [hq, hlast, join_ok]⟩
  · rintro ⟨hc, p, hp⟩
    obtain ⟨kind, tag, space, attrs, children⟩ := n
    simp only [Node.kind] at hk
    subst hk
    refine ⟨{ p with conditionals := p.conditionals + 1 }, ?_⟩
    simp only [lowerNode]
    rw [show checkBranches _ children = .ok () from hc]
    change (join (lowerBranches o b d true children) (lineAt o d endMark) >>= _) = _
    rw [show join (lowerBranches o b d true children) _ = .ok p from hp]
    rfl

theorem checkBranches_ok_iff {id : Bytes} {cs : List Node} : checkBranches id cs = .ok () ↔
    (cs.length = 1 ∨ cs.length = 2) ∧ ∀ c ∈ cs, c.kind = .branch := by
  refine ⟨fun h => ⟨(checkBranches_ok h).2, (checkBranches_ok h).1⟩, fun ⟨hlen, hk⟩ => ?_⟩
  have hnone : cs.find? (·.kind ≠ .branch) = none :=
    List.find?_eq_none.2 fun c hc => by simp [hk c hc]
  unfold checkBranches
  rw [hnone]
  exact if_neg (by omega)

theorem sound_conditional {o : Options} {b : Bindings} {d : Int} {n : Node}
    (hk : n.kind = .conditional) :
    Sound o b (d, n) ↔ ((n.children.length = 1 ∨ n.children.length = 2) ∧
        ∀ c ∈ n.children, c.kind = .branch) ∧
      (∀ c, n.children[0]? = some c →
        OpensBranch o c.children ∧ (o.strict = true → HasCondition o c.children)) ∧
      (∀ c, n.children[1]? = some c → ∀ m ∈ c.children, IsActivity m) ∧
      (padding? o.indentWidth d).isSome = true := by
  constructor
  · rintro ⟨ha, hi⟩
    exact ⟨ha.branches hk, fun c hc => ⟨ha.first hk c hc, fun hs => ha.strict hs hk c hc⟩,
      ha.second hk, hi (by simp [beginsLines, hk])⟩
  · rintro ⟨hb, hf, hs, hp⟩
    refine ⟨⟨?_, fun _ => hb, fun _ c hc => (hf c hc).1, fun _ => hs, ?_,
      fun hstrict _ c hc => (hf c hc).2 hstrict⟩, fun _ => hp⟩
    · simp [hk]
    · simp [hk]

mutual

theorem succeeds_lowerNode (o : Options) (b : Bindings) : ∀ (d : Int) (n : Node),
    Succeeds (lowerNode o b d n) ↔ IsActivity n ∧ ∀ x ∈ reached d n, Sound o b x
  | d, .mk .sequence tag space attrs children => by
    have hsound : Sound o b (d, .mk .sequence tag space attrs children) ↔
        ∀ c ∈ children, IsActivity c := by
      refine ⟨fun h => h.1.inside rfl, fun h => ⟨?_, fun hb => ?_⟩⟩
      · constructor <;> simp [Node.kind]
        exact h
      · simp [beginsLines, isWritten, Node.kind] at hb
    simp only [lowerNode, reached, List.forall_mem_cons, hsound]
    rw [succeeds_lowerNodes o b d strayCondition children]
    simp [IsActivity, Node.kind]
  | d, .mk .conditional tag space attrs [] => by
    rw [succeeds_lowerNode_conditional rfl, checkBranches_ok_iff]
    simp only [reached, List.forall_mem_cons]
    rw [sound_conditional rfl]
    simp [Node.children]
  | d, .mk .conditional tag space attrs [.mk kind tag₁ space₁ attrs₁ cs] => by
    rw [succeeds_lowerNode_conditional rfl, checkBranches_ok_iff]
    simp only [reached, reachedAll, List.forall_mem_cons, List.append_nil]
    rw [sound_conditional rfl]
    simp only [Node.children, lowerBranches, lowerBranch, if_true, succeeds_join, succeeds_lineAt,
      succeeds_lowerSlot o b (d + 1) _ cs]
    constructor
    · rintro ⟨⟨hlen, hk⟩, ⟨⟨hpad, hopen, hcond, hin⟩, -⟩, -⟩
      obtain rfl : kind = .branch := hk _ List.mem_cons_self
      refine ⟨Or.inr (Or.inl rfl), ⟨⟨hlen, hk⟩, ?_, by simp, hpad⟩, sound_of_part (Or.inl rfl), hin⟩
      rintro c ⟨⟩
      exact ⟨hopen, hcond⟩
    · rintro ⟨-, ⟨⟨hlen, hk⟩, hfirst, -, hpad⟩, -, hin⟩
      obtain rfl : kind = .branch := hk _ List.mem_cons_self
      obtain ⟨hopen, hcond⟩ := hfirst _ rfl
      exact ⟨⟨hlen, hk⟩, ⟨⟨hpad, hopen, hcond, hin⟩, succeeds_ok blank⟩, hpad⟩
  | d, .mk .conditional tag space attrs
      [.mk kind tag₁ space₁ attrs₁ cs, .mk kind₂ tag₂ space₂ attrs₂ ds] => by
    rw [succeeds_lowerNode_conditional rfl, checkBranches_ok_iff]
    simp only [reached, reachedAll, List.forall_mem_cons, List.forall_mem_append, List.append_nil]
    rw [sound_conditional rfl]
    simp only [Node.children, lowerBranches, lowerBranch, if_true, Bool.false_eq_true, if_false,
      succeeds_join, succeeds_lineAt, succeeds_lowerSlot o b (d + 1) _ cs,
      succeeds_lowerNodes o b (d + 1) _ ds]
    constructor
    · rintro ⟨⟨hlen, hk⟩, ⟨⟨hpad, hopen, hcond, hin⟩, ⟨-, hact, hin₂⟩, -⟩, -⟩
      obtain rfl : kind = .branch := hk _ List.mem_cons_self
      obtain rfl : kind₂ = .branch := hk _ (List.mem_cons_of_mem _ List.mem_cons_self)
      refine ⟨Or.inr (Or.inl rfl), ⟨⟨hlen, hk⟩, ?_, ?_, hpad⟩,
        ⟨sound_of_part (Or.inl rfl), hin⟩, sound_of_part (Or.inl rfl), hin₂⟩
      · rintro c ⟨⟩
        exact ⟨hopen, hcond⟩
      · rintro c ⟨⟩
        exact hact
    · rintro ⟨-, ⟨⟨hlen, hk⟩, hfirst, hsecond, hpad⟩, ⟨-, hin⟩, -, hin₂⟩
      obtain rfl : kind = .branch := hk _ List.mem_cons_self
      obtain rfl : kind₂ = .branch := hk _ (List.mem_cons_of_mem _ List.mem_cons_self)
      obtain ⟨hopen, hcond⟩ := hfirst _ rfl
      exact ⟨⟨hlen, hk⟩, ⟨⟨hpad, hopen, hcond, hin⟩, ⟨hpad, hsecond _ rfl, hin₂⟩,
        succeeds_ok blank⟩, hpad⟩
  | d, .mk .conditional tag space attrs (_ :: _ :: _ :: _) => by
    rw [succeeds_lowerNode_conditional rfl, checkBranches_ok_iff]
    simp only [reached, List.forall_mem_cons]
    rw [sound_conditional rfl]
    simp [Node.children]
  | d, .mk .step tag space attrs children => by
    simp only [lowerNode, reached]
    rw [succeeds_lowerStep rfl]
    simp [IsActivity, Node.kind]
  | d, .mk .branch tag space attrs children => by
    simp [lowerNode, not_succeeds_error, IsActivity, Node.kind]
  | d, .mk .condition tag space attrs children => by
    simp [lowerNode, not_succeeds_error, IsActivity, Node.kind]
  | d, .mk .unknown tag space attrs children => by
    simp [lowerNode, not_succeeds_error, IsActivity, Node.kind]

theorem succeeds_lowerNodes (o : Options) (b : Bindings) : ∀ (d : Int) (stray : Node → Fault)
    (ns : List Node), Succeeds (lowerNodes o b d stray ns) ↔
      (∀ c ∈ ns, IsActivity c) ∧ ∀ x ∈ reachedAll d ns, Sound o b x
  | d, stray, [] => by
    simp [lowerNodes, succeeds_ok, reachedAll]
  | d, stray, n :: ns => by
    rw [lowerNodes, succeeds_join, succeeds_lowerNodes o b d stray ns, reachedAll,
      List.forall_mem_append, List.forall_mem_cons]
    have hn : Succeeds (if n.kind = .condition then .error (stray n) else lowerNode o b d n) ↔
        IsActivity n ∧ ∀ x ∈ reached d n, Sound o b x := by
      split
      · rename_i hk
        simp [not_succeeds_error, not_isActivity_condition hk]
      · exact succeeds_lowerNode o b d n
    rw [hn]
    exact and_and_and_comm

theorem succeeds_lowerSlot (o : Options) (b : Bindings) : ∀ (d : Int) (id : Bytes)
    (ns : List Node), Succeeds (lowerSlot o b d id ns) ↔
      OpensBranch o ns ∧ (o.strict = true → HasCondition o ns) ∧ ∀ x ∈ reachedAll d ns, Sound o b x
  | d, id, [] => by
    have hnone : ¬ HasCondition o [] := by simp [HasCondition]
    have hopen : OpensBranch o [] := ⟨[], [], rfl, by simp, by simp, by simp⟩
    rw [lowerSlot, succeeds_lowerMissing]
    simp [reachedAll, hnone, hopen]
  | d, id, n :: ns => by
    rw [lowerSlot, reachedAll, List.forall_mem_append]
    by_cases hk : n.kind = .condition
    · have hn : ∀ x ∈ reached d n, Sound o b x := by
        obtain ⟨kind, tag, space, attrs, children⟩ := n
        simp only [Node.kind] at hk
        subst hk
        simpa [reached] using sound_of_part (Or.inr rfl)
      rw [if_pos hk, opensBranch_condition hk, and_iff_right hn]
      by_cases hname : nameOf o n = []
      · have hopen : ((∀ c ∈ ns, IsActivity c) ∨ nameOf o n = [] ∧ OpensBranch o ns) ↔
            OpensBranch o ns := by
          refine ⟨?_, fun h => Or.inr ⟨hname, h⟩⟩
          rintro (h | ⟨-, h⟩)
          · exact ⟨[], ns, rfl, by simp, h, by simp⟩
          · exact h
        rw [if_pos (by simp [hname]), succeeds_lowerSlot o b d id ns, hopen,
          hasCondition_unnamed ns hk hname]
      · rw [if_neg (by simpa using hname), succeeds_join, succeeds_lowerNodes o b d _ ns]
        simp only [succeeds_ok, hname, false_and, or_false, hasCondition_named ns hk hname,
          implies_true, true_and]
    · rw [if_neg hk, succeeds_join, succeeds_join, succeeds_lowerNode o b d n,
        succeeds_lowerNodes o b d _ ns, opensBranch_activity hk]
      have hslot : Succeeds (if n.kind = .conditional then .ok blank else lowerMissing o id) ↔
          (o.strict = true → n.kind = .conditional) := by
        split
        · rename_i hc
          simp [succeeds_ok, hc]
        · rename_i hc
          simp [succeeds_lowerMissing, hc]
      rw [hslot]
      constructor
      · rintro ⟨hs, ⟨hact, hin⟩, hacts, hins⟩
        have hall : ∀ c ∈ n :: ns, IsActivity c := List.forall_mem_cons.2 ⟨hact, hacts⟩
        exact ⟨hall, fun h => (hasCondition_activity hall).2 (hs h), hin, hins⟩
      · rintro ⟨hall, hcond, hin, hins⟩
        obtain ⟨hact, hacts⟩ := List.forall_mem_cons.1 hall
        exact ⟨fun h => (hasCondition_activity hall).1 (hcond h), ⟨hact, hin⟩, hacts, hins⟩

end

/-! ## Faults -/

def IsBlame (f : Fault) : Prop :=
  f.code? = some .malformed ∨ f.code? = some .missingCondition ∨ f.code? = some .namespaceLookup

/-- A fault of a definition whose activities are `xs`: it is one to blame the definition for, or one
of the lines cannot be indented. -/
def Explained (o : Options) (xs : List (Int × Node)) (f : Fault) : Prop :=
  IsBlame f ∨ (f = .aborted .negativeIndent ∧ ∃ x ∈ xs, ¬ Indented o x)

theorem Explained.mono {o : Options} {xs ys : List (Int × Node)} {f : Fault}
    (h : Explained o xs f) (hsub : ∀ x ∈ xs, x ∈ ys) : Explained o ys f := by
  rcases h with h | ⟨hf, x, hx, hi⟩
  · exact Or.inl h
  · exact Or.inr ⟨hf, x, hsub x hx, hi⟩

theorem isBlame_misplaced (element message : Bytes) (details : List (Bytes × Detail)) :
    IsBlame (misplaced element message details) := Or.inl rfl

theorem code?_of_resolve {b : Bindings} {space : Bytes} {f : Fault}
    (h : b.resolve space = .error f) : f.code? = some .namespaceLookup := by
  unfold Definition.Bindings.resolve at h
  split at h
  · cases h
    rfl
  · split at h
    · cases h
      rfl
    · dsimp only at h
      split at h
      · cases h
        rfl
      · cases h

theorem isBlame_of_stepType {b : Bindings} {n : Node} {f : Fault} (h : stepType b n = .error f) :
    IsBlame f := by
  unfold stepType at h
  split at h
  · cases h
  · split at h
    · cases h
    · rename_i g hg
      cases h
      exact Or.inr (Or.inr ((Fault.code?_withDetail _ _ g).trans (code?_of_resolve hg)))

theorem isBlame_of_checkBranches {id : Bytes} {cs : List Node} {f : Fault}
    (h : checkBranches id cs = .error f) : IsBlame f := by
  unfold checkBranches at h
  split at h
  · cases h
    exact isBlame_misplaced _ _ _
  · split at h
    · cases h
      exact isBlame_misplaced _ _ _
    · cases h

theorem isBlame_of_lowerMissing {o : Options} {id : Bytes} {f : Fault}
    (h : lowerMissing o id = .error f) : IsBlame f := by
  unfold lowerMissing at h
  split at h
  · cases h
    exact Or.inr (Or.inl rfl)
  · cases h

theorem lineAt_eq_error {o : Options} {d : Int} {s : Bytes} {f : Fault}
    (h : lineAt o d s = .error f) :
    f = .aborted .negativeIndent ∧ padding? o.indentWidth d = none := by
  unfold lineAt at h
  split at h
  · cases h
  · rename_i hnone
    cases h
    exact ⟨rfl, hnone⟩

theorem not_indented {o : Options} {d : Int} {n : Node} (hn : beginsLines o n = true)
    (hp : padding? o.indentWidth d = none) : ¬ Indented o (d, n) := by
  intro h
  simpa [hp] using h hn

theorem lowerStep_explained {o : Options} {b : Bindings} {d : Int} {n : Node} {f : Fault}
    (hk : n.kind = .step) (h : lowerStep o b d n = .error f) : Explained o [(d, n)] f := by
  unfold lowerStep at h
  split at h
  · cases h
  · rename_i hf
    cases ht : stepType b n with
    | error g =>
      rw [ht] at h
      cases h
      exact Or.inl (isBlame_of_stepType ht)
    | ok type =>
      rw [ht] at h
      cases hl : lineAt o d (stepCall type) with
      | error g =>
        simp only [hl, bind, Except.bind] at h
        cases h
        obtain ⟨rfl, hp⟩ := lineAt_eq_error hl
        exact Or.inr ⟨rfl, _, List.mem_singleton_self _,
          not_indented (by simpa [beginsLines, isWritten, hk] using hf) hp⟩
      | ok q =>
        simp only [hl, bind, Except.bind] at h
        cases h

mutual

theorem lowerNode_explained (o : Options) (b : Bindings) : ∀ (d : Int) (n : Node) (f : Fault),
    (∀ x ∈ reached d n, x.2.kind ≠ .unknown) → lowerNode o b d n = .error f →
    Explained o (reached d n) f
  | d, .mk .sequence tag space attrs children, f, hu, h => by
    simp only [lowerNode] at h
    simp only [reached, List.forall_mem_cons] at hu
    exact (lowerNodes_explained o b d strayCondition children f
      (fun n _ => isBlame_misplaced _ _ _) hu.2 h).mono fun x hx => List.mem_cons_of_mem _ hx
  | d, .mk .conditional tag space attrs children, f, hu, h => by
    simp only [lowerNode] at h
    simp only [reached, List.forall_mem_cons] at hu
    cases hc : checkBranches (Node.mk .conditional tag space attrs children).id children with
    | error g =>
      rw [hc] at h
      cases h
      exact Or.inl (isBlame_of_checkBranches hc)
    | ok u =>
      rw [hc] at h
      change (join (lowerBranches o b d true children) (lineAt o d endMark) >>= _) = _ at h
      -- a line of the conditional itself, or something in its branches
      have hline : padding? o.indentWidth d = none → f = .aborted .negativeIndent →
          Explained o (reached d (.mk .conditional tag space attrs children)) f := fun hp hf =>
        Or.inr ⟨hf, _, List.mem_cons_self, not_indented (by simp [beginsLines, Node.kind]) hp⟩
      cases hj : join (lowerBranches o b d true children) (lineAt o d endMark) with
      | ok p =>
        rw [hj] at h
        cases h
      | error g =>
        rw [hj] at h
        obtain rfl : g = f := Except.error.inj h
        rcases join_eq_error hj with hb | hl
        · rcases lowerBranches_explained o b d true children g (checkBranches_ok hc).1 hu.2 hb with
            ⟨hf, hp⟩ | he
          · exact hline hp hf
          · exact he.mono fun x hx => List.mem_cons_of_mem _ hx
        · obtain ⟨hf, hp⟩ := lineAt_eq_error hl
          exact hline hp hf
  | d, .mk .step tag space attrs children, f, hu, h => lowerStep_explained rfl h
  | d, .mk .branch tag space attrs children, f, hu, h => by
    simp only [lowerNode] at h
    cases h
    exact Or.inl (isBlame_misplaced _ _ _)
  | d, .mk .condition tag space attrs children, f, hu, h => by
    simp only [lowerNode] at h
    cases h
    exact Or.inl (isBlame_misplaced _ _ _)
  | d, .mk .unknown tag space attrs children, f, hu, h =>
    absurd rfl (hu (d, .mk .unknown tag space attrs children) (by simp [reached]))

theorem lowerNodes_explained (o : Options) (b : Bindings) : ∀ (d : Int) (stray : Node → Fault)
    (ns : List Node) (f : Fault), (∀ n ∈ ns, IsBlame (stray n)) →
    (∀ x ∈ reachedAll d ns, x.2.kind ≠ .unknown) → lowerNodes o b d stray ns = .error f →
    Explained o (reachedAll d ns) f
  | d, stray, [], f, hs, hu, h => by
    rw [lowerNodes] at h
    cases h
  | d, stray, n :: ns, f, hs, hu, h => by
    rw [reachedAll, List.forall_mem_append] at hu
    rw [lowerNodes] at h
    rcases join_eq_error h with h | h
    · split at h
      · cases h
        exact Or.inl (hs n List.mem_cons_self)
      · exact (lowerNode_explained o b d n f hu.1 h).mono fun x hx => List.mem_append_left _ hx
    · exact (lowerNodes_explained o b d stray ns f (fun m hm => hs m (List.mem_cons_of_mem _ hm))
        hu.2 h).mono fun x hx => List.mem_append_right _ hx

theorem lowerBranches_explained (o : Options) (b : Bindings) : ∀ (d : Int) (first : Bool)
    (ns : List Node) (f : Fault), (∀ n ∈ ns, n.kind = .branch) →
    (∀ x ∈ reachedAll d ns, x.2.kind ≠ .unknown) → lowerBranches o b d first ns = .error f →
    (f = .aborted .negativeIndent ∧ padding? o.indentWidth d = none) ∨
      Explained o (reachedAll d ns) f
  | d, first, [], f, hk, hu, h => by
    rw [lowerBranches] at h
    cases h
  | d, first, n :: ns, f, hk, hu, h => by
    rw [reachedAll, List.forall_mem_append] at hu
    rw [lowerBranches] at h
    rcases join_eq_error h with h | h
    · rcases lowerBranch_explained o b d first n f (hk n List.mem_cons_self) hu.1 h with h | h
      · exact Or.inl h
      · exact Or.inr (h.mono fun x hx => List.mem_append_left _ hx)
    · rcases lowerBranches_explained o b d false ns f
        (fun m hm => hk m (List.mem_cons_of_mem _ hm)) hu.2 h with h | h
      · exact Or.inl h
      · exact Or.inr (h.mono fun x hx => List.mem_append_right _ hx)

theorem lowerBranch_explained (o : Options) (b : Bindings) : ∀ (d : Int) (first : Bool) (n : Node)
    (f : Fault), n.kind = .branch → (∀ x ∈ reached d n, x.2.kind ≠ .unknown) →
    lowerBranch o b d first n = .error f →
    (f = .aborted .negativeIndent ∧ padding? o.indentWidth d = none) ∨ Explained o (reached d n) f
  | d, first, .mk kind tag space attrs children, f, hk, hu, h => by
    simp only [Node.kind] at hk
    subst hk
    simp only [reached, List.forall_mem_cons] at hu
    simp only [lowerBranch] at h
    split at h
    · rcases join_eq_error h with h | h
      · exact Or.inl (lineAt_eq_error h)
      · exact Or.inr ((lowerSlot_explained o b (d + 1) _ children f hu.2 h).mono
          fun x hx => List.mem_cons_of_mem _ hx)
    · rcases join_eq_error h with h | h
      · exact Or.inl (lineAt_eq_error h)
      · exact Or.inr ((lowerNodes_explained o b (d + 1) _ children f
          (fun _ _ => isBlame_misplaced _ _ _) hu.2 h).mono fun x hx => List.mem_cons_of_mem _ hx)

theorem lowerSlot_explained (o : Options) (b : Bindings) : ∀ (d : Int) (id : Bytes)
    (ns : List Node) (f : Fault), (∀ x ∈ reachedAll d ns, x.2.kind ≠ .unknown) →
    lowerSlot o b d id ns = .error f → Explained o (reachedAll d ns) f
  | d, id, [], f, hu, h => by
    rw [lowerSlot] at h
    exact Or.inl (isBlame_of_lowerMissing h)
  | d, id, n :: ns, f, hu, h => by
    rw [reachedAll, List.forall_mem_append] at hu
    have hrest : lowerNodes o b d (fun _ => surplusCondition true id) ns = .error f →
        Explained o (reachedAll d (n :: ns)) f := fun h =>
      (lowerNodes_explained o b d _ ns f (fun _ _ => isBlame_misplaced _ _ _) hu.2 h).mono
        fun x hx => List.mem_append_right _ hx
    rw [lowerSlot] at h
    split at h
    · split at h
      · exact (lowerSlot_explained o b d id ns f hu.2 h).mono fun x hx => List.mem_append_right _ hx
      · rcases join_eq_error h with h | h
        · cases h
        · exact hrest h
    · rcases join_eq_error h with h | h
      · split at h
        · cases h
        · exact Or.inl (isBlame_of_lowerMissing h)
      · rcases join_eq_error h with h | h
        · exact (lowerNode_explained o b d n f hu.1 h).mono fun x hx => List.mem_append_left _ hx
        · exact hrest h

end

/-- **Which definitions have an expression.** A definition has one exactly when every activity that
is reached is allowed and every line can be indented. A definition of known kinds without one is to
blame by the code of the fault, or has a line that cannot be indented. -/
theorem expression_ok_iff (o : Options) (b : Bindings) (root : Node) (hd : 0 ≤ o.baseDepth)
    (hk : root.kind = .sequence) :
    ((∃ e, expression o ⟨some root, b⟩ = .ok e) ↔
      (∀ x ∈ reached o.baseDepth root, Allowed o b x.2) ∧ LaidOut o root) ∧
    ∀ f, (∀ x ∈ reached o.baseDepth root, x.2.kind ≠ .unknown) →
      expression o ⟨some root, b⟩ = .error f →
      IsBlame f ∨ (f = .aborted .negativeIndent ∧ ¬ LaidOut o root) := by
  have hroot : lowerNodes o b o.baseDepth strayCondition root.children
      = lowerNode o b o.baseDepth root := by
    obtain ⟨kind, tag, space, attrs, children⟩ := root
    simp only [Node.kind] at hk
    subst hk
    rfl
  rw [expression_eq o b root hd hk, hroot]
  have hact : IsActivity root := Or.inl hk
  constructor
  · change Succeeds _ ↔ _
    rw [succeeds_join, and_iff_right (succeeds_ok _), succeeds_lowerNode o b o.baseDepth root,
      and_iff_right hact]
    exact ⟨fun h => ⟨fun x hx => (h x hx).1, fun x hx => (h x hx).2⟩,
      fun h x hx => ⟨h.1 x hx, h.2 x hx⟩⟩
  · intro f hu h
    rcases join_eq_error h with h | h
    · cases h
    · rcases lowerNode_explained o b o.baseDepth root f hu h with h | ⟨hf, x, hx, hi⟩
      · exact Or.inl h
      · exact Or.inr ⟨hf, fun hlaid => hi (hlaid x hx)⟩

theorem expression_ok_iff_forked :
    ((∀ x ∈ reached 1 forked, Allowed ⟨"f", 1, 2, "Condition", [], false⟩ [] x.2) ∧
      LaidOut ⟨"f", 1, 2, "Condition", [], false⟩ forked) ∧
    ∃ f, expression ⟨"f", 1, 2, "Condition", [], true⟩ ⟨some forked, []⟩ = .error f ∧
      (IsBlame f ∨ (f = .aborted .negativeIndent ∧
        ¬ LaidOut ⟨"f", 1, 2, "Condition", [], true⟩ forked)) := by
  constructor
  · refine (expression_ok_iff ⟨"f", 1, 2, "Condition", [], false⟩ [] forked (by decide) rfl).1.1
      ⟨⟨"f\n  .If(() => Ready())\n    .Do<A>()\n  .Else()\n    .If(() => )\n    .EndIf()\n  .EndIf()",
        ["branch D has no condition, emitted an empty .If(() => )"], 1, 2⟩, ?_⟩
    rw [forked]
    repeat rw [Bytes.ofString_ofList]
    decide +kernel
  · refine ⟨.new .missingCondition "branch D has no condition" [("element", .text "D")],
      by decide +kernel, ?_⟩
    exact (expression_ok_iff ⟨"f", 1, 2, "Condition", [], true⟩ [] forked (by decide) rfl).2 _
      (by decide) (by decide +kernel)

/-- Options under which the product of depth and width is negative as a 64-bit integer on the first
line. -/
def overflowing : Options := ⟨"f", 2, 4611686018427387904, "Condition", [], false⟩

/-- The grammar alone does not decide: an indentation that cannot be written ends the walk. -/
theorem allowed_without_expression :
    0 ≤ overflowing.baseDepth ∧ 0 ≤ overflowing.indentWidth ∧
    (∀ x ∈ reached overflowing.baseDepth oneStep, Allowed overflowing [] x.2) ∧
    expression overflowing ⟨some oneStep, []⟩ = .error (.aborted .negativeIndent) := by
  refine ⟨by decide, by decide, ?_, by decide⟩
  intro x hx
  simp only [reached, reachedAll, oneStep, List.append_nil, List.mem_cons, List.not_mem_nil,
    or_false] at hx
  rcases hx with rfl | rfl <;> constructor <;> simp [Node.kind, Node.children, IsActivity, Node.space]

end Flowsmith.Flow
