import Flowsmith.Xml.Tree

/-!
# The elements of a document

What edits of a document do to its elements and to the nodes that are none.

* `Node.decideEq` : whether two nodes are the same can be decided;
* `forest_induction` : induction on nodes, with those below an element;
* `levels_append`, `mem_breadthFirst_cons` : the elements of nodes one after the other;
* `leaves` : the nodes that are no elements, at every depth;
* `areFlat` : below elements of one kind there is none of another;
* `mem_pruneAll`, `mem_pruneAll_of_flat` : what is left, and what survives, when elements are removed;
* `Appended` : a child was added below an element.
-/

namespace Flowsmith.Xml

/-! ## Equality -/

mutual

def Node.decideEq (a b : Node) : Decidable (a = b) :=
  match a, b with
  | .element name attrs children, .element name' attrs' children' =>
    have := Node.decideEqAll children children'
    decidable_of_iff (name = name' ∧ attrs = attrs' ∧ children = children') (by rw [Node.element.injEq])
  | .text s, .text s' => decidable_of_iff (s = s') (by rw [Node.text.injEq])
  | .comment s, .comment s' => decidable_of_iff (s = s') (by rw [Node.comment.injEq])
  | .instruction target content, .instruction target' content' =>
    decidable_of_iff (target = target' ∧ content = content') (by rw [Node.instruction.injEq])
  | .directive s, .directive s' => decidable_of_iff (s = s') (by rw [Node.directive.injEq])
  | .element .., .text _ | .element .., .comment _ | .element .., .instruction .. | .element .., .directive _
  | .text _, .element .. | .text _, .comment _ | .text _, .instruction .. | .text _, .directive _
  | .comment _, .element .. | .comment _, .text _ | .comment _, .instruction .. | .comment _, .directive _
  | .instruction .., .element .. | .instruction .., .text _ | .instruction .., .comment _
  | .instruction .., .directive _
  | .directive _, .element .. | .directive _, .text _ | .directive _, .comment _
  | .directive _, .instruction .. => isFalse nofun

def Node.decideEqAll (as bs : List Node) : Decidable (as = bs) :=
  match as, bs with
  | [], [] => isTrue rfl
  | a :: as, b :: bs =>
    have := Node.decideEq a b
    have := Node.decideEqAll as bs
    decidable_of_iff (a = b ∧ as = bs) (by rw [List.cons.injEq])
  | [], _ :: _ | _ :: _, [] => isFalse nofun

end

instance : DecidableEq Node := Node.decideEq

/-! ## Nodes one after the other -/

def Node.isLeaf : Node → Bool
  | .element .. => false
  | _ => true

/-- What holds of no nodes, is kept by an element in front when it holds below it, and by every other
node in front, holds of all nodes. -/
theorem forest_induction {P : List Node → Prop} (nil : P [])
    (element : ∀ name attrs children ns, P children → P ns → P (.element name attrs children :: ns))
    (leaf : ∀ n ns, n.isLeaf = true → P ns → P (n :: ns)) : ∀ ns, P ns
  | [] => nil
  | .element name attrs children :: ns =>
    element name attrs children ns (forest_induction nil element leaf children)
      (forest_induction nil element leaf ns)
  | .text s :: ns => leaf (.text s) ns rfl (forest_induction nil element leaf ns)
  | .comment s :: ns => leaf (.comment s) ns rfl (forest_induction nil element leaf ns)
  | .instruction t c :: ns => leaf (.instruction t c) ns rfl (forest_induction nil element leaf ns)
  | .directive s :: ns => leaf (.directive s) ns rfl (forest_induction nil element leaf ns)
termination_by ns => sizeOf ns

@[simp] theorem joinLevels_nil {α : Type} (as : List (List α)) : joinLevels as [] = as := by
  cases as <;> rfl

theorem joinLevels_assoc {α : Type} (as bs cs : List (List α)) :
    joinLevels (joinLevels as bs) cs = joinLevels as (joinLevels bs cs) := by
  induction as generalizing bs cs with
  | nil => rfl
  | cons a as ih =>
    cases bs with
    | nil => rfl
    | cons b bs =>
      cases cs with
      | nil => rfl
      | cons c cs => simp [joinLevels, ih]

theorem mem_joinLevels {α : Type} {x : α} {as bs : List (List α)} :
    x ∈ (joinLevels as bs).flatten ↔ x ∈ as.flatten ∨ x ∈ bs.flatten := by
  induction as generalizing bs with
  | nil => simp [joinLevels]
  | cons a as ih =>
    cases bs with
    | nil => simp
    | cons b bs =>
      rw [joinLevels, List.flatten_cons, List.mem_append, List.mem_append, ih, List.flatten_cons,
        List.flatten_cons, List.mem_append, List.mem_append]
      constructor
      · rintro ((h | h) | (h | h)) <;> simp [h]
      · rintro ((h | h) | (h | h)) <;> simp [h]

theorem Node.levels_of_isLeaf {n : Node} (h : n.isLeaf = true) : n.levels = [] := by
  cases n <;> first | rfl | cases h

theorem levels_append (ns ms : List Node) : levels (ns ++ ms) = joinLevels (levels ns) (levels ms) := by
  induction ns with
  | nil => rfl
  | cons n ns ih => rw [List.cons_append, levels, levels, ih, joinLevels_assoc]

/-! ## Membership -/

variable {e : Element} {name : Name} {attrs : List Attribute} {children ns : List Node}

@[simp] theorem not_mem_breadthFirst_nil : e ∉ breadthFirst [] := List.not_mem_nil

@[simp] theorem mem_breadthFirst_element :
    e ∈ breadthFirst (.element name attrs children :: ns) ↔
      e = ⟨name, attrs⟩ ∨ e ∈ breadthFirst children ∨ e ∈ breadthFirst ns := by
  rw [breadthFirst, levels, mem_joinLevels, Node.levels, List.flatten_cons, List.mem_append,
    List.mem_singleton, or_assoc]
  rfl

theorem mem_breadthFirst_leaf {n : Node} (h : n.isLeaf = true) :
    e ∈ breadthFirst (n :: ns) ↔ e ∈ breadthFirst ns := by
  rw [breadthFirst, levels, n.levels_of_isLeaf h]
  rfl

theorem mem_breadthFirst_cons {n : Node} :
    e ∈ breadthFirst (n :: ns) ↔ e ∈ n.levels.flatten ∨ e ∈ breadthFirst ns := by
  rw [breadthFirst, levels, mem_joinLevels]
  rfl

@[simp] theorem mem_breadthFirst_append {ms : List Node} :
    e ∈ breadthFirst (ns ++ ms) ↔ e ∈ breadthFirst ns ∨ e ∈ breadthFirst ms := by
  rw [breadthFirst, levels_append, mem_joinLevels]
  rfl

mutual

/-- The node itself, or what is below it, without the elements. -/
def Node.leaves : Node → List Node
  | .element _ _ children => leaves children
  | n => [n]

/-- The nodes that are no elements, at every depth. -/
def leaves : List Node → List Node
  | [] => []
  | n :: ns => n.leaves ++ leaves ns

end

theorem Node.leaves_of_isLeaf {n : Node} (h : n.isLeaf = true) : n.leaves = [n] := by
  cases n <;> first | rfl | cases h

theorem mem_leaves_cons {n k : Node} : k ∈ leaves (n :: ns) ↔ k ∈ n.leaves ∨ k ∈ leaves ns := by
  rw [leaves, List.mem_append]

theorem leaves_append (ns ms : List Node) : leaves (ns ++ ms) = leaves ns ++ leaves ms := by
  induction ns with
  | nil => rfl
  | cons n ns ih => rw [List.cons_append, leaves, leaves, ih, List.append_assoc]

/-! ## Flat documents -/

mutual

/-- Below a node no element whose name `r` picks has one below it whose name `g` picks. -/
def Node.isFlat (r g : Name → Bool) : Node → Bool
  | .element name _ children =>
    (!r name || (breadthFirst children).all fun e => !g e.name) && areFlat r g children
  | _ => true

/-- In a document no element whose name `r` picks has one below it whose name `g` picks. -/
def areFlat (r g : Name → Bool) : List Node → Bool
  | [] => true
  | n :: ns => n.isFlat r g && areFlat r g ns

end

variable {r g : Name → Bool}

@[simp] theorem areFlat_element :
    areFlat r g (.element name attrs children :: ns) = true ↔
      (r name = true → ∀ e ∈ breadthFirst children, g e.name = false) ∧
        areFlat r g children = true ∧ areFlat r g ns = true := by
  rw [areFlat, Node.isFlat]
  cases r name <;> simp [and_assoc]

theorem areFlat_leaf {n : Node} (h : n.isLeaf = true) :
    areFlat r g (n :: ns) = areFlat r g ns := by
  cases n <;> first | rfl | cases h

theorem areFlat_append {ms : List Node} :
    areFlat r g (ns ++ ms) = true ↔ areFlat r g ns = true ∧ areFlat r g ms = true := by
  induction ns with
  | nil => simp [areFlat]
  | cons n ns ih => rw [List.cons_append, areFlat, areFlat, Bool.and_eq_true, Bool.and_eq_true, ih,
      and_assoc]

/-! ## Removing elements -/

variable {p : Element → Bool}

theorem pruneAll_leaf {n : Node} (h : n.isLeaf = true) :
    pruneAll p (n :: ns) = n :: pruneAll p ns := by
  cases n <;> first | rfl | cases h

theorem pruneAll_element (p : Element → Bool) (name : Name) (attrs : List Attribute)
    (children ns : List Node) :
    pruneAll p (.element name attrs children :: ns) =
      if p ⟨name, attrs⟩ then pruneAll p ns
      else .element name attrs (pruneAll p children) :: pruneAll p ns := by
  rw [pruneAll, Node.prune]
  split <;> rfl

theorem mem_pruneAll (h : e ∈ breadthFirst (pruneAll p ns)) : e ∈ breadthFirst ns ∧ p e = false := by
  induction ns using forest_induction with
  | nil => cases h
  | element name attrs children ns ihc ihn =>
    rw [pruneAll_element] at h
    rw [mem_breadthFirst_element]
    split at h
    · obtain ⟨hmem, hp⟩ := ihn h
      exact ⟨.inr (.inr hmem), hp⟩
    · rename_i hp
      rcases mem_breadthFirst_element.1 h with rfl | h | h
      · exact ⟨.inl rfl, by simpa using hp⟩
      · obtain ⟨hmem, hp⟩ := ihc h
        exact ⟨.inr (.inl hmem), hp⟩
      · obtain ⟨hmem, hp⟩ := ihn h
        exact ⟨.inr (.inr hmem), hp⟩
  | leaf n ns hn ihn =>
    rw [pruneAll_leaf hn, mem_breadthFirst_leaf hn] at h
    rw [mem_breadthFirst_leaf hn]
    exact ihn h

/-- In a flat document the elements of the one kind survive when elements of the other are removed. -/
theorem mem_pruneAll_of_flat (hflat : areFlat r g ns = true) (hp : ∀ e, p e = true → r e.name = true)
    (hmem : e ∈ breadthFirst ns) (hg : g e.name = true) (hkeep : p e = false) :
    e ∈ breadthFirst (pruneAll p ns) := by
  induction ns using forest_induction with
  | nil => cases hmem
  | element name attrs children ns ihc ihn =>
    obtain ⟨hbelow, hchildren, hns⟩ := areFlat_element.1 hflat
    rw [pruneAll_element]
    split
    · rename_i hmatch
      rcases mem_breadthFirst_element.1 hmem with rfl | hmem | hmem
      · rw [hmatch] at hkeep
        cases hkeep
      · rw [hbelow (hp _ hmatch) e hmem] at hg
        cases hg
      · exact ihn hns hmem
    · rw [mem_breadthFirst_element]
      rcases mem_breadthFirst_element.1 hmem with h | hmem | hmem
      · exact .inl h
      · exact .inr (.inl (ihc hchildren hmem))
      · exact .inr (.inr (ihn hns hmem))
  | leaf n ns hn ihn =>
    rw [mem_breadthFirst_leaf hn] at hmem
    rw [areFlat_leaf hn] at hflat
    rw [pruneAll_leaf hn, mem_breadthFirst_leaf hn]
    exact ihn hflat hmem

theorem areFlat_pruneAll (h : areFlat r g ns = true) : areFlat r g (pruneAll p ns) = true := by
  induction ns using forest_induction with
  | nil => rfl
  | element name attrs children ns ihc ihn =>
    obtain ⟨hbelow, hchildren, hns⟩ := areFlat_element.1 h
    rw [pruneAll_element]
    split
    · exact ihn hns
    · exact areFlat_element.2 ⟨fun hr e he => hbelow hr e (mem_pruneAll he).1, ihc hchildren, ihn hns⟩
  | leaf n ns hn ihn =>
    rw [areFlat_leaf hn] at h
    rw [pruneAll_leaf hn, areFlat_leaf hn]
    exact ihn h

theorem pruneAll_eq_self (h : ∀ e ∈ breadthFirst ns, p e = false) : pruneAll p ns = ns := by
  induction ns using forest_induction with
  | nil => rfl
  | element name attrs children ns ihc ihn =>
    have hhere := h ⟨name, attrs⟩ (by simp)
    rw [pruneAll_element, hhere, ihc fun e he => h e (by simp [he]), ihn fun e he => h e (by simp [he])]
    rfl
  | leaf n ns hn ihn =>
    rw [pruneAll_leaf hn, ihn fun e he => h e ((mem_breadthFirst_leaf hn).2 he)]

theorem leaves_pruneAll : leaves (pruneAll p ns) ⊆ leaves ns := by
  induction ns using forest_induction with
  | nil => exact fun _ h => h
  | element name attrs children ns ihc ihn =>
    rw [pruneAll_element]
    split
    · exact fun n hn => List.mem_append_right _ (ihn hn)
    · intro n hn
      rcases List.mem_append.1 hn with hn | hn
      · exact List.mem_append_left _ (ihc hn)
      · exact List.mem_append_right _ (ihn hn)
  | leaf n ns hn ihn =>
    rw [pruneAll_leaf hn, leaves, leaves]
    intro k hk
    rcases List.mem_append.1 hk with hk | hk
    · exact List.mem_append_left _ hk
    · exact List.mem_append_right _ (ihn hk)

/-! ## The root -/

def rootName? (ns : List Node) : Option Name := (root? ns).map (·.1)

@[simp] theorem rootName?_nil : rootName? [] = none := rfl

@[simp] theorem rootName?_element :
    rootName? (.element name attrs children :: ns) = some name := rfl

theorem rootName?_leaf {n : Node} (h : n.isLeaf = true) : rootName? (n :: ns) = rootName? ns := by
  cases n <;> first | rfl | cases h

theorem rootName?_pruneAll {root : Name} (h : rootName? ns = some root)
    (hp : ∀ e, p e = true → r e.name = true) (hr : r root = false) :
    rootName? (pruneAll p ns) = some root := by
  induction ns using forest_induction with
  | nil => cases h
  | element name attrs children ns _ _ =>
    obtain rfl : name = root := Option.some.inj h
    rw [pruneAll_element, if_neg]
    · rfl
    · intro hmatch
      rw [hp _ hmatch] at hr
      cases hr
  | leaf n ns hn ihn =>
    rw [rootName?_leaf hn] at h
    rw [pruneAll_leaf hn, rootName?_leaf hn]
    exact ihn h

/-! ## Adding a child -/

/-- The nodes `ns'` are `ns` with a child added at the end of an element whose name `q` picks. -/
inductive Appended (q : Name → Bool) (child : Node) : List Node → List Node → Prop where
  | here {name : Name} (attrs : List Attribute) (children ns : List Node) (h : q name = true) :
    Appended q child (.element name attrs children :: ns)
      (.element name attrs (children ++ [child]) :: ns)
  | inside {children children' : List Node} (name : Name) (attrs : List Attribute) (ns : List Node)
    (h : Appended q child children children') :
    Appended q child (.element name attrs children :: ns) (.element name attrs children' :: ns)
  | after {ns ns' : List Node} (n : Node) (h : Appended q child ns ns') :
    Appended q child (n :: ns) (n :: ns')

variable {q : Name → Bool} {child : Node} {ns' : List Node}

theorem appended_appendAt? {step : Name} {depth : Nat}
    (h : appendAt? step child depth ns = some ns') :
    Appended (·.isMeantBy step) child ns ns' := by
  induction ns using forest_induction generalizing depth ns' with
  | nil => cases h
  | element name attrs children ns ihc ihn =>
    rw [appendAt?, Node.appendAt?.eq_def] at h
    cases depth with
    | zero =>
      by_cases hname : name.isMeantBy step = true
      · simp only [hname, if_true, Option.some.injEq] at h
        subst h
        exact .here _ _ _ hname
      · simp only [hname, Bool.false_eq_true, if_false, Option.map_eq_some_iff] at h
        obtain ⟨ns'', hns, rfl⟩ := h
        exact .after _ (ihn hns)
    | succ depth =>
      cases hchildren : appendAt? step child depth children with
      | some children' =>
        simp only [hchildren, Option.map_some, Option.some.injEq] at h
        subst h
        exact .inside _ _ _ (ihc hchildren)
      | none =>
        simp only [hchildren, Option.map_none, Option.map_eq_some_iff] at h
        obtain ⟨ns'', hns, rfl⟩ := h
        exact .after _ (ihn hns)
  | leaf n ns hn ihn =>
    have hnone : Node.appendAt? step child depth n = none := by
      cases n <;> first | rfl | cases hn
    rw [appendAt?, hnone] at h
    obtain ⟨ns'', hns, rfl⟩ := Option.map_eq_some_iff.1 h
    exact .after _ (ihn hns)

theorem appended_appendTo? {step : Bytes} (h : appendTo? step child ns = some ns') :
    Appended (·.isMeantBy (.ofPath step)) child ns ns' := by
  obtain ⟨depth, -, hdepth⟩ := List.exists_of_findSome?_eq_some h
  exact appended_appendAt? hdepth

theorem appended_appendToRoot {root : Name} (h : rootName? ns = some root) :
    Appended (· == root) child ns (appendToRoot child ns) := by
  induction ns using forest_induction with
  | nil => cases h
  | element name attrs children ns _ _ =>
    obtain rfl : name = root := Option.some.inj h
    exact .here _ _ _ (beq_self_eq_true _)
  | leaf n ns hn ihn =>
    have hstep : appendToRoot child (n :: ns) = n :: appendToRoot child ns := by
      cases n <;> first | rfl | cases hn
    rw [rootName?_leaf hn] at h
    rw [hstep]
    exact .after _ (ihn h)

namespace Appended

theorem mem_iff (h : Appended q child ns ns') :
    e ∈ breadthFirst ns' ↔ e ∈ breadthFirst ns ∨ e ∈ breadthFirst [child] := by
  induction h with
  | here attrs children ns h =>
    rw [mem_breadthFirst_element, mem_breadthFirst_element, mem_breadthFirst_append]
    constructor
    · rintro (h | (h | h) | h) <;> simp [h]
    · rintro ((h | h | h) | h) <;> simp [h]
  | inside name attrs ns h ih =>
    rw [mem_breadthFirst_element, mem_breadthFirst_element, ih]
    constructor
    · rintro (h | (h | h) | h) <;> simp [h]
    · rintro ((h | h | h) | h) <;> simp [h]
  | after n h ih =>
    rw [mem_breadthFirst_cons, mem_breadthFirst_cons, ih, or_assoc]

theorem mem_leaves_iff (h : Appended q child ns ns') {n : Node} :
    n ∈ leaves ns' ↔ n ∈ leaves ns ∨ n ∈ leaves [child] := by
  induction h with
  | here attrs children ns h =>
    rw [mem_leaves_cons, mem_leaves_cons, Node.leaves, leaves_append, List.mem_append,
      Node.leaves, or_right_comm]
  | inside name attrs ns h ih =>
    rw [mem_leaves_cons, mem_leaves_cons, Node.leaves, ih, Node.leaves, or_right_comm]
  | after n h ih => rw [mem_leaves_cons, mem_leaves_cons, ih, or_assoc]

theorem rootName?_eq (h : Appended q child ns ns') : rootName? ns' = rootName? ns := by
  induction h with
  | here attrs children ns h => rfl
  | inside name attrs ns h ih => rfl
  | after n h ih =>
    cases hn : n.isLeaf with
    | true => rw [rootName?_leaf hn, rootName?_leaf hn, ih]
    | false => cases n <;> first | rfl | cases hn

theorem exists_mem (h : Appended q child ns ns') : ∃ e ∈ breadthFirst ns, q e.name = true := by
  induction h with
  | here attrs children ns h => exact ⟨⟨_, attrs⟩, mem_breadthFirst_element.2 (.inl rfl), h⟩
  | inside name attrs ns h ih =>
    obtain ⟨e, he, hq⟩ := ih
    exact ⟨e, mem_breadthFirst_element.2 (.inr (.inl he)), hq⟩
  | after n h ih =>
    obtain ⟨e, he, hq⟩ := ih
    exact ⟨e, mem_breadthFirst_cons.2 (.inr he), hq⟩

/-- A flat document stays flat when something is added below an element that such a document has no
removable element above. -/
theorem areFlat (h : Appended q child ns ns') (hns : Xml.areFlat r g ns = true)
    (hchild : Xml.areFlat r g [child] = true)
    (hq : ∀ n, q n = true → r n = false ∧ g n = true) : Xml.areFlat r g ns' = true := by
  induction h with
  | here attrs children ns h =>
    obtain ⟨-, hc, hn⟩ := areFlat_element.1 hns
    refine areFlat_element.2 ⟨fun hr => ?_, areFlat_append.2 ⟨hc, hchild⟩, hn⟩
    rw [(hq _ h).1] at hr
    cases hr
  | inside name attrs ns h ih =>
    obtain ⟨hbelow, hc, hn⟩ := areFlat_element.1 hns
    refine areFlat_element.2 ⟨fun hr => ?_, ih hc, hn⟩
    obtain ⟨e, he, hqe⟩ := h.exists_mem
    have hge := (hq _ hqe).2
    rw [hbelow hr e he] at hge
    cases hge
  | after n h ih =>
    rw [← List.singleton_append, areFlat_append] at hns ⊢
    exact ⟨hns.1, ih hns.2⟩

end Appended

theorem areFlat_appendToRoot {root : Name} (h : rootName? ns = some root) (hr : r root = false)
    (hns : areFlat r g ns = true) (hchild : areFlat r g [child] = true) :
    areFlat r g (appendToRoot child ns) = true := by
  induction ns using forest_induction with
  | nil => cases h
  | element name attrs children ns _ _ =>
    obtain rfl : name = root := Option.some.inj h
    obtain ⟨-, hc, hn⟩ := areFlat_element.1 hns
    refine areFlat_element.2 ⟨fun hrn => ?_, areFlat_append.2 ⟨hc, hchild⟩, hn⟩
    rw [hr] at hrn
    cases hrn
  | leaf n ns hn ihn =>
    have hstep : appendToRoot child (n :: ns) = n :: appendToRoot child ns := by
      cases n <;> first | rfl | cases hn
    rw [rootName?_leaf hn] at h
    rw [areFlat_leaf hn] at hns
    rw [hstep, areFlat_leaf hn]
    exact ihn h hns

end Flowsmith.Xml
