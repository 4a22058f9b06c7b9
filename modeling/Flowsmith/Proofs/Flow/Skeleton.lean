import Flowsmith.Proofs.Definition.Scope
import Flowsmith.Proofs.Flow.Lowering

/-!
# The skeleton of a definition

The walk over a definition looks at little of its markup: at the names of activities, at the attributes
that name them or give a condition its name, and not at what is below a step. What it looks at is the
skeleton of the markup, which is markup again.

* `skeleton`, `documentSkeleton` : markup cut down to what is kept;
* `Definition.Node.trim` : an activity cut down in the same way, `convertAll_skeleton`;
* `runNode_trim`, `runNodes_trim` : the walk over a trimmed activity, under declarations that agree;
* `expression_of_skeleton` : markup with the same skeleton and the same prefixes has the same outcome.
-/

namespace Flowsmith.Definition

/-! ## Markup cut down -/

def nameKey : Bytes := "x:Name"

/-- Whether an attribute of an element is looked at: the one that names an activity, and on a condition
the one that gives the condition its name. -/
def isKept (key : Bytes) (kind? : Option Kind) (full : Bytes) : Bool :=
  full == nameKey || (kind? = some .condition && full == key)

def isCondition (v : Vocabulary) : Xml.Node → Bool
  | .element name _ _ => v.classify? name = some .condition
  | _ => false

/-- What is looked at below an element: nothing below a step, and below a condition only conditions. -/
def keptBelow (v : Vocabulary) (kind? : Option Kind) (ns : List Xml.Node) : List Xml.Node :=
  match kind? with
  | some .step => []
  | some .condition => ns.filter (isCondition v)
  | _ => ns

mutual

/-- A node cut down; an element whose name `drops` picks is left out with all that is below it. -/
def skeletonNode (v : Vocabulary) (key : Bytes) (drops : Xml.Name → Bool) : Xml.Node → List Xml.Node
  | .element name attrs children =>
    if drops name then []
    else [.element name (attrs.filter (isKept key (v.classify? name) ·.name.full))
      (keptBelow v (v.classify? name) (skeleton v key drops children))]
  | _ => []

/-- Nodes cut down: texts, comments, instructions and directives are left out too. -/
def skeleton (v : Vocabulary) (key : Bytes) (drops : Xml.Name → Bool) : List Xml.Node → List Xml.Node
  | [] => []
  | n :: ns => skeletonNode v key drops n ++ skeleton v key drops ns

end

def isNoActivity (v : Vocabulary) (name : Xml.Name) : Bool := (v.classify? name).isNone

/-- The tree that a definition is read from, cut down, with the name of its root. -/
def documentSkeleton (v : Vocabulary) (key : Bytes) (ns : List Xml.Node) :
    Option (Xml.Name × List Xml.Node) :=
  (Xml.root? ns).map fun (name, attrs, children) =>
    (name, skeletonNode v key (isNoActivity v) (.element name attrs children))

theorem skeletonNode_activity {v : Vocabulary} {key : Bytes} {name : Xml.Name} {kind : Kind}
    (hkind : v.classify? name = some kind) (attrs : List Xml.Attribute) (children : List Xml.Node) :
    skeletonNode v key (isNoActivity v) (.element name attrs children)
      = [.element name (attrs.filter (isKept key (some kind) ·.name.full))
          (keptBelow v (some kind) (skeleton v key (isNoActivity v) children))] := by
  rw [skeletonNode, if_neg (by simp [isNoActivity, hkind]), hkind]

/-! ## Activities cut down -/

mutual

/-- An activity cut down to what the walk looks at. -/
def Node.trim (key : Bytes) : Node → Node
  | .mk kind tag space attrs children =>
    .mk kind tag space (attrs.filter (isKept key (some kind) ·.1))
      (match kind with
        | .step => []
        | .condition => (trimAll key children).filter (·.kind = .condition)
        | _ => trimAll key children)

def trimAll (key : Bytes) : List Node → List Node
  | [] => []
  | n :: ns => n.trim key :: trimAll key ns

end

section Trim

variable {key : Bytes}

theorem trimAll_append (ns ms : List Node) :
    trimAll key (ns ++ ms) = trimAll key ns ++ trimAll key ms := by
  induction ns with
  | nil => rfl
  | cons n ns ih => rw [List.cons_append, trimAll, trimAll, ih, List.cons_append]

theorem trimAll_eq_map (ns : List Node) : trimAll key ns = ns.map (Node.trim key) := by
  induction ns with
  | nil => rfl
  | cons n ns ih => rw [trimAll, ih, List.map_cons]

@[simp] theorem Node.kind_trim (n : Node) : (n.trim key).kind = n.kind := by
  cases n
  rfl

@[simp] theorem Node.tag_trim (n : Node) : (n.trim key).tag = n.tag := by
  cases n
  rfl

@[simp] theorem Node.space_trim (n : Node) : (n.trim key).space = n.space := by
  cases n
  rfl

@[simp] theorem Node.name_trim (n : Node) : (n.trim key).name = n.name := by
  simp only [Node.name, tag_trim, space_trim]

theorem Node.attr?_trim (n : Node) {k : Bytes} (hk : isKept key (some n.kind) k = true) :
    (n.trim key).attr? k = n.attr? k := by
  obtain ⟨kind, tag, space, attrs, children⟩ := n
  have hsame : ∀ a : Bytes × Bytes, (isKept key (some kind) a.1 && a.1 == k) = (a.1 == k) := by
    intro a
    by_cases ha : a.1 = k
    · rw [ha, show isKept key (some kind) k = true from hk, Bool.true_and]
    · rw [beq_eq_false_iff_ne.2 ha, Bool.and_false]
  simp only [Node.attr?, Node.trim, Node.attrs, List.find?_filter]
  congr 2
  funext a
  rw [Bool.eq_iff_iff, decide_eq_true_eq, ← Bool.and_eq_true, hsame]

@[simp] theorem Node.id_trim (key : Bytes) (n : Node) : (n.trim key).id = n.id := by
  rw [Node.id, Node.id, ← nameKey, n.attr?_trim (by simp [isKept]), name_trim]

/-- What is below an activity does not count for what it is called. -/
theorem Node.id_mk_trim (key : Bytes) (kind : Kind) (tag space : Bytes) (attrs : List (Bytes × Bytes))
    (children below : List Node) :
    (Node.mk kind tag space (attrs.filter (isKept key (some kind) ·.1)) below).id
      = (Node.mk kind tag space attrs children).id :=
  (Node.mk kind tag space attrs children).id_trim key

theorem filter_trimAll_cons (n : Node) (ns : List Node) :
    (trimAll key (n :: ns)).filter (·.kind = .condition)
      = if n.kind = .condition then n.trim key :: (trimAll key ns).filter (·.kind = .condition)
        else (trimAll key ns).filter (·.kind = .condition) := by
  rw [trimAll, List.filter_cons, Node.kind_trim]
  simp only [decide_eq_true_eq]

end Trim

/-! ## What markup is read as -/

section Convert

variable {v : Vocabulary} {key : Bytes}

theorem convertAll_append (ns ms : List Xml.Node) :
    convertAll v (ns ++ ms) = convertAll v ns ++ convertAll v ms := by
  induction ns with
  | nil => rfl
  | cons n ns ih => rw [List.cons_append, convertAll, convertAll, ih, List.append_assoc]

theorem ownAttributes_filter (p : Bytes → Bool) (attrs : List Xml.Attribute) :
    ownAttributes (attrs.filter (p ·.name.full)) = (ownAttributes attrs).filter (p ·.1) := by
  simp only [ownAttributes, List.filter_map, List.filter_filter]
  congr 2
  funext a
  exact Bool.and_comm _ _

/-- The conditions among nodes are what the nodes that are conditions are read as. -/
theorem convertAll_filter_isCondition (ns : List Xml.Node) :
    convertAll v (ns.filter (isCondition v)) = (convertAll v ns).filter (·.kind = .condition) := by
  have hnode : ∀ n : Xml.Node, (convertNode v n).filter (·.kind = .condition)
      = if isCondition v n then convertNode v n else [] := by
    intro n
    cases n with
    | element name attrs children =>
      simp only [isCondition, convertNode, decide_eq_true_eq]
      cases v.classify? name with
      | none => rfl
      | some kind => by_cases hk : kind = .condition <;> simp [hk, Node.kind]
    | _ => rfl
  induction ns with
  | nil => rfl
  | cons n ns ih =>
    rw [convertAll, List.filter_append, ← ih, hnode, List.filter_cons]
    by_cases hn : isCondition v n = true
    · rw [if_pos hn, if_pos hn, convertAll]
    · rw [if_neg hn, if_neg hn, List.nil_append]

/-- Markup that is cut down is read as the activities cut down. -/
theorem convertAll_skeleton (ns : List Xml.Node) :
    convertAll v (skeleton v key (isNoActivity v) ns) = trimAll key (convertAll v ns) := by
  induction ns using Xml.forest_induction with
  | nil => rfl
  | element name attrs children ns ihc ihn =>
    rw [skeleton, convertAll_append, ihn, convertAll, trimAll_append, convertNode]
    congr 1
    cases hkind : v.classify? name with
    | none =>
      rw [skeletonNode, if_pos (by rw [isNoActivity, hkind]; rfl)]
      rfl
    | some kind =>
      rw [skeletonNode_activity hkind]
      simp only [convertAll, convertNode, hkind, List.append_nil, trimAll, Node.trim,
        ownAttributes_filter]
      congr 2
      cases kind with
      | step => rfl
      | condition =>
        simp only [keptBelow]
        rw [convertAll_filter_isCondition, ihc]
      | _ => exact ihc
  | leaf n ns hn ihn =>
    have hskeleton : skeletonNode v key (isNoActivity v) n = [] := by
      cases n <;> first | rfl | cases hn
    have hconvert : convertNode v n = [] := by cases n <;> first | rfl | cases hn
    rw [skeleton, hskeleton, convertAll, hconvert, List.nil_append, List.nil_append, ihn]

end Convert

end Flowsmith.Definition

namespace Flowsmith.Flow

open Definition (Node Kind Bindings Vocabulary trimAll skeleton documentSkeleton treeElements
  firstDeclared?)

/-! ## The walk over what is cut down -/

section Walk

variable {key : Bytes}

mutual

theorem conditionName?_trim : ∀ n : Node, n.kind = .condition →
    conditionName? key (n.trim key) = conditionName? key n
  | .mk kind tag space attrs children, hk => by
    obtain rfl : kind = .condition := hk
    have hattr := (Node.mk .condition tag space attrs children).attr?_trim
      (show Definition.isKept key (some .condition) key = true by simp [Definition.isKept])
    simp only [Node.trim] at hattr ⊢
    rw [conditionName?, conditionName?, hattr, firstConditionName?_trim children]

/-- The conditions that are left below a condition give it the same name. -/
theorem firstConditionName?_trim : ∀ ns : List Node,
    firstConditionName? key ((trimAll key ns).filter (·.kind = .condition))
      = firstConditionName? key ns
  | [] => rfl
  | n :: ns => by
    rw [Definition.filter_trimAll_cons, firstConditionName?]
    by_cases hk : n.kind = .condition
    · rw [if_pos hk, if_pos hk, firstConditionName?, n.kind_trim, if_pos hk, conditionName?_trim n hk,
        firstConditionName?_trim ns]
    · rw [if_neg hk, if_neg hk, firstConditionName?_trim ns]

end

theorem checkBranches_trim (id : Bytes) (ns : List Node) :
    checkBranches id (trimAll key ns) = checkBranches id ns := by
  unfold checkBranches
  rw [Definition.trimAll_eq_map, List.find?_map, List.length_map]
  have hkind : (fun n : Node => decide (n.kind ≠ .branch)) ∘ Node.trim key
      = fun n => decide (n.kind ≠ .branch) := funext fun n => by simp
  rw [hkind]
  cases ns.find? (fun n => decide (n.kind ≠ .branch)) with
  | none => rfl
  | some n => simp

variable {b b' : Bindings}

theorem stepType_trim (hb : ∀ space, b'.address? space = b.address? space) (n : Node) :
    stepType b' (n.trim key) = stepType b n := by
  rw [← Definition.stepType_congr (hb n.space)]
  simp only [stepType, n.space_trim, n.tag_trim, n.id_trim]

theorem runStep_trim (o : Options) (hb : ∀ space, b'.address? space = b.address? space) (n : Node)
    (st : State) : runStep o b' (n.trim key) st = runStep o b n st := by
  simp only [runStep, n.tag_trim, stepType_trim hb]

theorem runCondition_trim (o : Options) (id : Bytes) {n : Node} (hk : n.kind = .condition)
    (st : State) : runCondition o id (n.trim o.conditionAttribute) st = runCondition o id n st := by
  simp only [runCondition, conditionName?_trim n hk]

/-! The walk looks at nothing that is cut off, and at the addresses of prefixes only. -/

mutual

theorem runNode_trim (o : Options) (hb : ∀ space, b'.address? space = b.address? space) :
    ∀ (n : Node) (st : State),
    runNode o b' (n.trim o.conditionAttribute) st = runNode o b n st
  | .mk .sequence tag space attrs children, st => by
    simp only [Node.trim, runNode]
    exact runNodes_trim o hb children st
  | .mk .conditional tag space attrs children, st => by
    simp only [Node.trim, runNode, Node.id_mk_trim _ _ _ _ _ children, checkBranches_trim]
    cases hcheck : checkBranches (Node.mk .conditional tag space attrs children).id children with
    | error f => rfl
    | ok _ =>
      have hbranches := runBranches_trim o hb true children (checkBranches_ok hcheck).1
        { st with pending := false, conditionals := st.conditionals + 1 }
      simp only [hbranches]
  | .mk .step tag space attrs children, st =>
    runStep_trim o hb (.mk .step tag space attrs children) st
  | .mk .branch tag space attrs children, st => by
    simp only [Node.trim, runNode, Node.id_mk_trim _ _ _ _ _ children]
  | .mk .condition tag space attrs children, st => by
    simp only [Node.trim, runNode, Node.id_mk_trim _ _ _ _ _ children]
  | .mk .unknown tag space attrs children, st => by
    simp only [Node.trim, runNode]

theorem runNodes_trim (o : Options) (hb : ∀ space, b'.address? space = b.address? space) :
    ∀ (ns : List Node) (st : State),
    runNodes o b' (trimAll o.conditionAttribute ns) st = runNodes o b ns st
  | [], st => rfl
  | n :: ns, st => by
    rw [trimAll, runNodes, runNodes, runNode_trim o hb n st]
    exact congrArg _ (funext fun st' => runNodes_trim o hb ns st')

theorem runBranches_trim (o : Options) (hb : ∀ space, b'.address? space = b.address? space) :
    ∀ (first : Bool) (ns : List Node), (∀ n ∈ ns, n.kind = .branch) → ∀ st : State,
    runBranches o b' first (trimAll o.conditionAttribute ns) st = runBranches o b first ns st
  | first, [], _, st => rfl
  | first, n :: ns, hk, st => by
    rw [List.forall_mem_cons] at hk
    rw [trimAll, runBranches, runBranches, runBranch_trim o hb first n hk.1 st]
    exact congrArg _ (funext fun st' => runBranches_trim o hb false ns hk.2 st')

theorem runBranch_trim (o : Options) (hb : ∀ space, b'.address? space = b.address? space) :
    ∀ (first : Bool) (n : Node), n.kind = .branch → ∀ st : State,
    runBranch o b' first (n.trim o.conditionAttribute) st = runBranch o b first n st
  | first, .mk kind tag space attrs children, hk, st => by
    obtain rfl : kind = .branch := hk
    simp only [Node.trim, runBranch, Node.id_mk_trim _ _ _ _ _ children,
      runItems_trim o hb first _ children]

theorem runItems_trim (o : Options) (hb : ∀ space, b'.address? space = b.address? space)
    (first : Bool) (id : Bytes) : ∀ (ns : List Node) (st : State),
    runItems o b' first id (trimAll o.conditionAttribute ns) st = runItems o b first id ns st
  | [], st => rfl
  | n :: ns, st => by
    rw [trimAll]
    by_cases hk : n.kind = .condition
    · have hrest : runItems o b' first id (trimAll o.conditionAttribute ns) = runItems o b first id ns :=
        funext (runItems_trim o hb first id ns)
      rw [runItems, runItems, n.kind_trim, if_pos hk, if_pos hk, runCondition_trim o id hk, hrest]
    · have hrest : (fun s => runNode o b' (n.trim o.conditionAttribute) s
            >>= runItems o b' first id (trimAll o.conditionAttribute ns))
          = fun s => runNode o b n s >>= runItems o b first id ns := by
        funext s
        rw [runNode_trim o hb n s]
        exact congrArg _ (funext (runItems_trim o hb first id ns))
      rw [runItems_activity o b first id ns st hk,
        runItems_activity o b' first id _ st (by rwa [n.kind_trim]), n.kind_trim, hrest]

end

end Walk

/-! ## Markup with the same skeleton -/

/-- What is cut off below a sequence at the top does not count, nor do declarations that give the same
addresses. -/
theorem expression_trim (o : Options) {b b' : Bindings} (hb : ∀ space, b'.address? space = b.address? space)
    (tag space : Bytes) (attrs attrs' : List (Bytes × Bytes)) (children : List Node) :
    expression o ⟨some (.mk .sequence tag space attrs' (trimAll o.conditionAttribute children)), b'⟩
      = expression o ⟨some (.mk .sequence tag space attrs children), b⟩ := by
  simp only [expression, Node.kind, Node.children, ne_eq, not_true_eq_false, if_false,
    runNodes_trim o hb]

/-- Below a sequence at the top, the skeleton and the first declarations decide the expression. -/
theorem ofNodes_bind_expression (s : Settings.Flow) {ns children : List Xml.Node} {name : Xml.Name}
    {attrs : List Xml.Attribute} (hroot : Xml.root? ns = some (name, attrs, children))
    (hkind : (Vocabulary.ofSettings s).classify? name = some .sequence) {b : Bindings}
    (hb : ∀ space, b.address? space = firstDeclared? space (treeElements ns)) :
    (Definition.ofNodes (.ofSettings s) ns >>= expression (.ofSettings s))
      = expression (.ofSettings s) ⟨some (.mk .sequence name.tag name.space []
          (Definition.convertAll (.ofSettings s) (skeleton (.ofSettings s) s.conditionAttribute
            (Definition.isNoActivity (.ofSettings s)) children))), b⟩ := by
  have hread := Definition.ofNodes_of_sequence hroot hkind
  have haddress : ∀ space, b.address? space = Bindings.address? _ space := fun space =>
    (hb space).trans (Definition.address?_ofNodes hread space).symm
  rw [hread, Definition.convertAll_skeleton]
  exact (expression_trim (.ofSettings s) haddress _ _ _ _ _).symm

/-- **The skeleton of a definition.** Markup with the same skeleton, in which prefixes are declared with
the same addresses, has the same expression or the same fault. -/
theorem expression_of_skeleton (s : Settings.Flow) (ns ms : List Xml.Node)
    (hskeleton : documentSkeleton (.ofSettings s) s.conditionAttribute ns
      = documentSkeleton (.ofSettings s) s.conditionAttribute ms)
    (hdeclared : ∀ space,
      firstDeclared? space (treeElements ns) = firstDeclared? space (treeElements ms)) :
    (Definition.ofNodes (.ofSettings s) ns >>= expression (.ofSettings s))
      = (Definition.ofNodes (.ofSettings s) ms >>= expression (.ofSettings s)) := by
  unfold documentSkeleton at hskeleton
  cases hns : Xml.root? ns with
  | none =>
    have hms : Xml.root? ms = none := by
      rw [hns] at hskeleton
      exact Option.map_eq_none_iff.1 hskeleton.symm
    simp only [Definition.ofNodes, hns, hms]
  | some top =>
    obtain ⟨name, attrs, children⟩ := top
    obtain ⟨⟨name', attrs', children'⟩, hms, heq⟩ : ∃ top', Xml.root? ms = some top' ∧ _ :=
      Option.map_eq_some_iff.1 (hskeleton.symm.trans (by rw [hns]; rfl))
    obtain ⟨rfl, hcut⟩ := Prod.mk.inj heq
    by_cases hkind : (Vocabulary.ofSettings s).classify? name' = some .sequence
    · -- the declarations of either document serve for both
      have haddress := Definition.address?_ofNodes (Definition.ofNodes_of_sequence hms hkind)
      rw [Definition.skeletonNode_activity hkind, Definition.skeletonNode_activity hkind,
        List.singleton_inj, Xml.Node.element.injEq] at hcut
      obtain ⟨-, -, hbelow⟩ := hcut
      rw [ofNodes_bind_expression s hms hkind haddress,
        ofNodes_bind_expression s hns hkind fun space => (haddress space).trans (hdeclared space).symm]
      exact congrArg (fun cs => expression (.ofSettings s) ⟨some (.mk .sequence name'.tag name'.space []
        (Definition.convertAll (.ofSettings s) cs)), _⟩) hbelow.symm
    · simp only [Definition.ofNodes, hns, hms, if_neg hkind]

def shortSettings : Settings.Flow where
  receiver := "f"
  sequenceElements := ["S"]
  conditionalElement := "C"
  branchElement := "B"
  conditionElements := ["K"]
  conditionAttribute := "Condition"

def plain : List Xml.Node :=
  [.element ⟨[], "S"⟩ [⟨⟨"xmlns", "p"⟩, "clr-namespace:N"⟩]
    [.element ⟨[], "C"⟩ []
      [.element ⟨[], "B"⟩ []
        [.element ⟨[], "K"⟩ [⟨⟨[], "Condition"⟩, " Ready "⟩] [], .element ⟨"p", "Go"⟩ [] []]]]]

def decorated : List Xml.Node :=
  [.comment " top ",
   .element ⟨[], "S"⟩ [⟨⟨[], "Width"⟩, "3"⟩]
    [.text "text",
     .element ⟨[], "S.Tag"⟩ [] [.element ⟨[], "A"⟩ [⟨⟨"xmlns", "p"⟩, "clr-namespace:N"⟩] []],
     .element ⟨[], "C"⟩ [⟨⟨[], "Condition"⟩, "Never"⟩]
      [.element ⟨[], "B"⟩ []
        [.element ⟨[], "K"⟩ [⟨⟨[], "Condition"⟩, " Ready "⟩] [.element ⟨[], "A"⟩ [] []],
         .element ⟨"p", "Go"⟩ [] [.element ⟨[], "C"⟩ [] []]]]]]

theorem expression_of_skeleton_decorated :
    (Definition.ofNodes (.ofSettings shortSettings) decorated
        >>= expression (.ofSettings shortSettings))
      = .ok ⟨"f\n.If(() => Ready())\n.Do<N.Go>()\n.EndIf()", [], 1, 1⟩ := by
  have hskeleton : documentSkeleton (.ofSettings shortSettings) shortSettings.conditionAttribute decorated
      = documentSkeleton (.ofSettings shortSettings) shortSettings.conditionAttribute plain := rfl
  have hdeclared : ∀ space, firstDeclared? space (treeElements decorated)
      = firstDeclared? space (treeElements plain) := fun space => by
    rw [firstDeclared?, firstDeclared?, ← Definition.address?_declaredBy,
      ← Definition.address?_declaredBy]
    rfl
  rw [expression_of_skeleton shortSettings decorated plain hskeleton hdeclared]
  decide +kernel

def isPointed (v : Vocabulary) (name : Xml.Name) : Bool :=
  name.tag.contains '.'.toUInt8 && v.classify? name ≠ some .condition

def pointedSettings : Settings.Flow := { shortSettings with conditionalElement := "If.Else" }

/-- The point alone does not decide what is cut off: a conditional may have one in its name, and the
element at the top is named in a fault. -/
theorem expression_of_pointed :
    let v := Vocabulary.ofSettings pointedSettings
    let outcome := fun ns => Definition.ofNodes v ns >>= expression (.ofSettings pointedSettings)
    let bare : List Xml.Node := [.element ⟨[], "S"⟩ [] []]
    let deciding : List Xml.Node :=
      [.element ⟨[], "S"⟩ [] [.element ⟨[], "If.Else"⟩ [] [.element ⟨[], "B"⟩ [] []]]]
    let here : List Xml.Node := [.element ⟨[], "A.B"⟩ [] []]
    let there : List Xml.Node := [.element ⟨[], "C.D"⟩ [] []]
    (skeleton v "Condition" (isPointed v) bare = skeleton v "Condition" (isPointed v) deciding ∧
      (∀ space, firstDeclared? space (treeElements bare)
        = firstDeclared? space (treeElements deciding)) ∧ outcome bare ≠ outcome deciding) ∧
    (skeleton v "Condition" (isPointed v) here = skeleton v "Condition" (isPointed v) there ∧
      (∀ space, firstDeclared? space (treeElements here)
        = firstDeclared? space (treeElements there)) ∧ outcome here ≠ outcome there) := by
  refine ⟨⟨rfl, fun _ => rfl, ?_⟩, rfl, fun _ => rfl, ?_⟩
  · decide
  · decide

end Flowsmith.Flow
