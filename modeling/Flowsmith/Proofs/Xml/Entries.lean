import Flowsmith.Proofs.Xml.Forest

/-!
# Documents in document order

The nodes of a document as they are met from its beginning to its end, each with the elements that it
lies in. They determine the document, and say what an edit does to all of it.

* `Entry`, `entries` : the nodes in document order;
* `entries_inj` : documents with the same nodes in the same places are the same;
* `entries_pruneAll` : what is left when elements are removed;
* `levels_getD`, `elementsNamed_of_entries` : the elements level by level;
* `Insertion` : nodes that are put behind all that lies in an element;
* `exists_of_appendTo?`, `appendToRoot_insertion` : where a child is added.
-/

namespace Flowsmith.Xml

/-! ## Entries -/

/-- A node as it is met: the elements it lies in, from the outermost one on, and the node, without what
lies in it. -/
structure Entry where
  above : List Element
  node : Node

namespace Entry

def element? (x : Entry) : Option Element :=
  match x.node with
  | .element name attrs _ => some ⟨name, attrs⟩
  | _ => none

/-- The elements from the outermost one through the one that is met. -/
def path (x : Entry) : List Element := x.above ++ x.element?.toList

/-- The number of elements that the node lies in. -/
def depth (x : Entry) : Nat := x.above.length

def meets (p : Element → Bool) (x : Entry) : Bool := x.element?.any p

theorem any_path {p : Element → Bool} {x : Entry} : x.path.any p = (x.above.any p || x.meets p) := by
  rw [path, List.any_append, meets]
  cases x.element? <;> simp

theorem meets_of_path {p : Element → Bool} {x : Entry} (h : x.path.any p = false) :
    x.meets p = false := by
  rw [any_path, Bool.or_eq_false_iff] at h
  exact h.2

end Entry

mutual

/-- The nodes from a node on through all that lies in it; `above` are the elements it lies in. -/
def Node.entries (above : List Element) : Node → List Entry
  | .element name attrs children =>
    ⟨above, .element name attrs []⟩ :: entries (above ++ [⟨name, attrs⟩]) children
  | n => [⟨above, n⟩]

/-- The nodes in document order, with all that lies in them; `above` are the elements they lie in. -/
def entries (above : List Element) : List Node → List Entry
  | [] => []
  | n :: ns => n.entries above ++ entries above ns

end

variable {a : List Element} {name : Name} {attrs : List Attribute} {children ns ms : List Node}
  {p : Element → Bool} {x : Entry}

@[simp] theorem entries_nil : entries a [] = [] := by rw [entries]

@[simp] theorem entries_element : entries a (.element name attrs children :: ns) =
    ⟨a, .element name attrs []⟩ :: (entries (a ++ [⟨name, attrs⟩]) children ++ entries a ns) := by
  rw [entries, Node.entries, List.cons_append]

theorem entries_leaf {n : Node} (h : n.isLeaf = true) : entries a (n :: ns) = ⟨a, n⟩ :: entries a ns := by
  cases n <;> first | rfl | cases h

theorem element?_leaf {n : Node} (h : n.isLeaf = true) : (⟨a, n⟩ : Entry).element? = none := by
  cases n <;> first | rfl | cases h

theorem entries_append (ns ms : List Node) : entries a (ns ++ ms) = entries a ns ++ entries a ms := by
  induction ns with
  | nil => simp
  | cons n ns ih => rw [List.cons_append, entries, entries, ih, List.append_assoc]

theorem above_begins (h : x ∈ entries a ns) : a <+: x.above := by
  induction ns using forest_induction generalizing a with
  | nil => simp at h
  | element name attrs children ns ihc ihn =>
    rw [entries_element, List.mem_cons, List.mem_append] at h
    rcases h with rfl | h | h
    · exact List.prefix_rfl
    · exact (List.prefix_append _ _).trans (ihc h)
    · exact ihn h
  | leaf n ns hn ihn =>
    rw [entries_leaf hn, List.mem_cons] at h
    rcases h with rfl | h
    · exact List.prefix_rfl
    · exact ihn h

theorem depth_lt_of_mem {e : Element} (h : x ∈ entries (a ++ [e]) ns) : a.length < x.depth := by
  have hle := (above_begins h).length_le
  rw [List.length_append] at hle
  exact hle

theorem above_of_head? (h : (entries a ns).head? = some x) : x.above = a := by
  cases ns with
  | nil => simp at h
  | cons n ns =>
    cases hn : n.isLeaf with
    | true =>
      rw [entries_leaf hn] at h
      cases h
      rfl
    | false =>
      cases n with
      | element name attrs children =>
        rw [entries_element] at h
        cases h
        rfl
      | _ => cases hn

/-- **The nodes in document order determine a document**, by how deep they lie. -/
theorem entries_inj (h : entries a ns = entries a ms) : ns = ms := by
  induction ns using forest_induction generalizing a ms with
  | nil =>
    cases ms with
    | nil => rfl
    | cons m ms => cases m <;> simp [entries, Node.entries] at h
  | element name attrs children ns ihc ihn =>
    cases ms with
    | nil => simp at h
    | cons m ms =>
      cases hm : m.isLeaf with
      | true =>
        rw [entries_element, entries_leaf hm] at h
        have hnode := congrArg Entry.node (List.cons.inj h).1
        simp only at hnode
        rw [← hnode] at hm
        cases hm
      | false =>
        cases m with
        | element name' attrs' children' =>
          rw [entries_element, entries_element] at h
          obtain ⟨hhead, htail⟩ := List.cons.inj h
          obtain ⟨rfl, rfl⟩ : name = name' ∧ attrs = attrs' := by
            have hnode := congrArg Entry.node hhead
            simpa using hnode
          -- what lies in the element is what is deeper, up to the first node that is not
          have hsplit : ∀ ks ls : List Node,
              (entries (a ++ [⟨name, attrs⟩]) ks ++ entries a ls).takeWhile (a.length < ·.depth)
                = entries (a ++ [⟨name, attrs⟩]) ks := by
            intro ks ls
            rw [List.takeWhile_append_of_pos fun y hy => decide_eq_true (depth_lt_of_mem hy)]
            cases hls : entries a ls with
            | nil => simp
            | cons y ys =>
              have hy := above_of_head? (show (entries a ls).head? = some y by rw [hls]; rfl)
              simp [Entry.depth, hy]
          have hchildren := (hsplit children ns).symm.trans ((congrArg _ htail).trans (hsplit children' ms))
          rw [hchildren] at htail
          rw [ihc hchildren, ihn (List.append_cancel_left htail)]
        | _ => cases hm
  | leaf n ns hn ihn =>
    cases ms with
    | nil => simp [entries_leaf hn] at h
    | cons m ms =>
      rw [entries_leaf hn] at h
      cases hm : m.isLeaf with
      | true =>
        rw [entries_leaf hm] at h
        obtain ⟨hhead, htail⟩ := List.cons.inj h
        rw [ihn htail, show n = m from congrArg Entry.node hhead]
      | false =>
        cases m with
        | element name attrs children =>
          rw [entries_element] at h
          have hnode := congrArg Entry.node (List.cons.inj h).1
          simp only at hnode
          rw [hnode] at hn
          cases hn
        | _ => cases hm

/-! ## Removing elements -/

/-- Of a document without the elements that match there is left what neither is nor lies in one. -/
theorem entries_pruneAll (ha : a.any p = false) :
    entries a (pruneAll p ns) = (entries a ns).filter fun x => !x.path.any p := by
  induction ns using forest_induction generalizing a with
  | nil => rfl
  | element name attrs children ns ihc ihn =>
    rw [pruneAll_element, entries_element, List.filter_cons, List.filter_append, ← ihn ha]
    have hpath : (⟨a, .element name attrs []⟩ : Entry).path.any p = p ⟨name, attrs⟩ := by
      simp [Entry.path, Entry.element?, ha]
    rw [hpath]
    cases hp : p ⟨name, attrs⟩ with
    | true =>
      have hgone : (entries (a ++ [⟨name, attrs⟩]) children).filter (fun x => !x.path.any p) = [] := by
        refine List.filter_eq_nil_iff.2 fun x hx => ?_
        obtain ⟨rest, hrest⟩ := above_begins hx
        simp [Entry.path, ← hrest, hp]
      rw [hgone]
      rfl
    | false =>
      rw [← ihc (by simp [ha, hp])]
      simp
  | leaf n ns hn ihn =>
    have hpath : (⟨a, n⟩ : Entry).path.any p = false := by
      simp [Entry.path, element?_leaf hn, ha]
    rw [pruneAll_leaf hn, entries_leaf hn, entries_leaf hn, List.filter_cons, hpath, ihn ha]
    rfl

/-! ## Level by level -/

theorem joinLevels_perm {α : Type} (as bs : List (List α)) :
    (joinLevels as bs).flatten.Perm (as.flatten ++ bs.flatten) := by
  induction as generalizing bs with
  | nil => exact List.Perm.refl _
  | cons a as ih =>
    cases bs with
    | nil => simp
    | cons b bs =>
      rw [joinLevels, List.flatten_cons, List.flatten_cons, List.flatten_cons, List.append_assoc,
        List.append_assoc]
      refine List.Perm.append_left a (((ih bs).append_left b).trans ?_)
      rw [← List.append_assoc, ← List.append_assoc]
      exact List.perm_append_comm.append_right _

theorem getD_joinLevels {α : Type} (as bs : List (List α)) (d : Nat) :
    (joinLevels as bs).getD d [] = as.getD d [] ++ bs.getD d [] := by
  induction as generalizing bs d with
  | nil => simp [joinLevels]
  | cons a as ih =>
    cases bs with
    | nil => simp
    | cons b bs =>
      cases d with
      | zero => rfl
      | succ d => simpa [joinLevels] using ih bs d

/-- Level by level the same elements are visited as in document order. -/
theorem breadthFirst_perm (a : List Element) (ns : List Node) :
    (breadthFirst ns).Perm ((entries a ns).filterMap (·.element?)) := by
  induction ns using forest_induction generalizing a with
  | nil => exact List.Perm.refl _
  | element name attrs children ns ihc ihn =>
    have hmet : (entries a (.element name attrs children :: ns)).filterMap (·.element?)
        = ⟨name, attrs⟩ :: ((entries (a ++ [⟨name, attrs⟩]) children).filterMap (·.element?)
          ++ (entries a ns).filterMap (·.element?)) := by
      rw [entries_element, ← List.filterMap_append]
      rfl
    rw [breadthFirst, levels, Node.levels, hmet]
    refine (joinLevels_perm _ _).trans ?_
    rw [List.flatten_cons, List.singleton_append, List.cons_append]
    exact ((ihc _).append (ihn a)).cons _
  | leaf n ns hn ihn =>
    rw [breadthFirst, levels, n.levels_of_isLeaf hn, entries_leaf hn,
      List.filterMap_cons_none (element?_leaf hn)]
    exact ihn a

theorem countP_breadthFirst (a : List Element) (ns : List Node) :
    (breadthFirst ns).countP p = (entries a ns).countP (Entry.meets p) := by
  rw [(breadthFirst_perm a ns).countP_eq, List.countP_filterMap]
  refine List.countP_congr fun x _ => ?_
  rw [Entry.meets]
  cases x.element? <;> simp

theorem mem_breadthFirst_of_mem {e : Element} (hx : x ∈ entries a ns) (he : x.element? = some e) :
    e ∈ breadthFirst ns :=
  (breadthFirst_perm a ns).mem_iff.2 (List.mem_filterMap.2 ⟨x, hx, he⟩)

theorem mem_breadthFirst_of_above {e : Element} (hx : x ∈ entries a ns) (he : e ∈ x.above) :
    e ∈ a ∨ e ∈ breadthFirst ns := by
  induction ns using forest_induction generalizing a with
  | nil => simp at hx
  | element name attrs children ns ihc ihn =>
    rw [entries_element, List.mem_cons, List.mem_append] at hx
    rw [mem_breadthFirst_element]
    rcases hx with rfl | hx | hx
    · exact .inl he
    · rcases ihc hx with h | h
      · rcases List.mem_append.1 h with h | h
        · exact .inl h
        · exact .inr (.inl (List.mem_singleton.1 h))
      · exact .inr (.inr (.inl h))
    · exact (ihn hx).imp_right fun h => .inr (.inr h)
  | leaf n ns hn ihn =>
    rw [entries_leaf hn, List.mem_cons] at hx
    rw [mem_breadthFirst_leaf hn]
    rcases hx with rfl | hx
    · exact .inl he
    · exact ihn hx

theorem mem_breadthFirst_of_path {e : Element} (hx : x ∈ entries [] ns) (he : e ∈ x.path) :
    e ∈ breadthFirst ns := by
  rcases List.mem_append.1 he with he | he
  · exact (mem_breadthFirst_of_above hx he).resolve_left List.not_mem_nil
  · exact mem_breadthFirst_of_mem hx (by simpa using he)

def elementsAt (d : Nat) (xs : List Entry) : List Element :=
  (xs.filter (·.depth == d)).filterMap (·.element?)

theorem elementsAt_append (d : Nat) (xs ys : List Entry) :
    elementsAt d (xs ++ ys) = elementsAt d xs ++ elementsAt d ys := by
  rw [elementsAt, List.filter_append, List.filterMap_append]
  rfl

/-- A level holds the elements of one depth in document order. -/
theorem levels_getD (a : List Element) (ns : List Node) (d : Nat) :
    (levels ns).getD d [] = elementsAt (a.length + d) (entries a ns) := by
  induction ns using forest_induction generalizing a d with
  | nil => rfl
  | element name attrs children ns ihc ihn =>
    have hmet : elementsAt (a.length + d) (entries a (.element name attrs children :: ns))
        = elementsAt (a.length + d) [⟨a, .element name attrs []⟩]
          ++ elementsAt (a.length + d) (entries (a ++ [⟨name, attrs⟩]) children)
          ++ elementsAt (a.length + d) (entries a ns) := by
      rw [← elementsAt_append, ← elementsAt_append, entries_element]
      rfl
    rw [levels, Node.levels, getD_joinLevels, ihn a, hmet]
    congr 1
    cases d with
    | zero =>
      have hnone : elementsAt a.length (entries (a ++ [⟨name, attrs⟩]) children) = [] := by
        rw [elementsAt, List.filter_eq_nil_iff.2 fun x hx => ?_]
        · rfl
        · simpa using Nat.ne_of_gt (depth_lt_of_mem hx)
      rw [Nat.add_zero, hnone]
      simp [elementsAt, Entry.depth, Entry.element?]
    | succ d =>
      have hlen : (a ++ [(⟨name, attrs⟩ : Element)]).length + d = a.length + (d + 1) := by
        rw [List.length_append, List.length_singleton]
        omega
      rw [List.getD_cons_succ, ihc (a ++ [⟨name, attrs⟩]), hlen]
      simp [elementsAt, Entry.depth]
  | leaf n ns hn ihn =>
    rw [levels, n.levels_of_isLeaf hn, entries_leaf hn, ← List.singleton_append, elementsAt_append]
    have hnone : elementsAt (a.length + d) [⟨a, n⟩] = [] := by
      rw [elementsAt, List.filter_cons]
      split <;> simp [element?_leaf hn]
    rw [hnone]
    exact ihn a d

theorem flatten_eq_flatMap_getD {α : Type} (ls : List (List α)) {k : Nat} (h : ls.length ≤ k) :
    ls.flatten = (List.range k).flatMap fun d => ls.getD d [] := by
  induction ls generalizing k with
  | nil => simp
  | cons l ls ih =>
    obtain ⟨k, rfl⟩ : ∃ j, k = j + 1 := ⟨k - 1, by rw [List.length_cons] at h; omega⟩
    rw [List.flatten_cons, ih (Nat.le_of_succ_le_succ h), List.range_succ_eq_map, List.flatMap_cons,
      List.flatMap_map]
    rfl

theorem depth_lt_length_levels {e : Element} (hx : x ∈ entries [] ns) (he : x.element? = some e) :
    x.depth < (levels ns).length := by
  refine Nat.lt_of_not_le fun hle => ?_
  have hmem : e ∈ elementsAt x.depth (entries [] ns) :=
    List.mem_filterMap.2 ⟨x, List.mem_filter.2 ⟨hx, beq_self_eq_true _⟩, he⟩
  have hlevel := levels_getD [] ns x.depth
  rw [List.getD_eq_getElem?_getD, List.getElem?_eq_none hle, List.length_nil, Nat.zero_add] at hlevel
  rw [← hlevel] at hmem
  exact List.not_mem_nil hmem

/-- The elements with a name, level by level, depend on where the nodes with that name are met. -/
theorem elementsNamed_of_entries {step : Bytes}
    (h : (entries [] ns).filter (Entry.meets fun e => e.name.isMeantBy (.ofPath step))
      = (entries [] ms).filter (Entry.meets fun e => e.name.isMeantBy (.ofPath step))) :
    elementsNamed step ns = elementsNamed step ms := by
  have hlevel : ∀ (ks : List Node) (d : Nat),
      ((levels ks).getD d []).filter (fun e => e.name.isMeantBy (.ofPath step))
        = elementsAt d ((entries [] ks).filter (Entry.meets fun e => e.name.isMeantBy (.ofPath step))) := by
    intro ks d
    rw [levels_getD [], List.length_nil, Nat.zero_add, elementsAt, elementsAt, List.filter_filter,
      List.filter_filterMap, List.filterMap_filter, List.filterMap_filter]
    congr 1
    funext x
    rw [Entry.meets]
    cases x.element? with
    | none => simp
    | some e => by_cases hd : x.depth = d <;> simp [hd, Option.filter]
  have hflat : ∀ (ks : List Node) (k : Nat), (levels ks).length ≤ k → elementsNamed step ks
      = (List.range k).flatMap fun d =>
        elementsAt d ((entries [] ks).filter (Entry.meets fun e => e.name.isMeantBy (.ofPath step))) := by
    intro ks k hk
    rw [elementsNamed, breadthFirst, flatten_eq_flatMap_getD _ hk, List.filter_flatMap]
    simp only [hlevel]
  rw [hflat ns _ (Nat.le_max_left _ (levels ms).length), hflat ms _ (Nat.le_max_right (levels ns).length _), h]

/-! ## Adding a child -/

/-- The nodes `now` are `old` with more at the end of an element: behind all that lies in it, and in front
of the next node that does not. -/
structure Insertion (old now : List Entry) where
  front : List Entry
  group : Entry
  inner : List Entry
  after : List Entry
  added : List Entry
  old_eq : old = front ++ group :: (inner ++ after)
  now_eq : now = front ++ group :: (inner ++ added ++ after)
  inner_deeper : ∀ y ∈ inner, group.depth < y.depth
  after_outside : ∀ y, after.head? = some y → y.depth ≤ group.depth

namespace Insertion

variable {old now : List Entry}

theorem mem_old_iff (i : Insertion old now) :
    x ∈ old ↔ x ∈ i.front ∨ x = i.group ∨ x ∈ i.inner ++ i.after := by
  rw [← List.mem_cons, ← List.mem_append]
  exact iff_of_eq (congrArg (x ∈ ·) i.old_eq)

/-- Where nothing is picked of what was put in, the same is picked as before. -/
theorem filter_now (i : Insertion old now) {f : Entry → Bool} (h : ∀ x ∈ i.added, f x = false) :
    now.filter f = old.filter f := by
  have hnone : i.added.filter f = [] := List.filter_eq_nil_iff.2 fun x hx => by simp [h x hx]
  have hold := i.old_eq
  have hnow := i.now_eq
  simp only [hold, hnow, List.filter_append, List.filter_cons, hnone, List.append_nil]

def prepend (xs : List Entry) (i : Insertion old now) : Insertion (xs ++ old) (xs ++ now) where
  front := xs ++ i.front
  group := i.group
  inner := i.inner
  after := i.after
  added := i.added
  old_eq := by rw [List.append_assoc, ← i.old_eq]
  now_eq := by rw [List.append_assoc, ← i.now_eq]
  inner_deeper := i.inner_deeper
  after_outside := i.after_outside

/-- More nodes behind, the first of them outside the element. -/
def extend (ys : List Entry) (i : Insertion old now)
    (h : ∀ y, ys.head? = some y → y.depth ≤ i.group.depth) : Insertion (old ++ ys) (now ++ ys) where
  front := i.front
  group := i.group
  inner := i.inner
  after := i.after ++ ys
  added := i.added
  old_eq := by
    have hold := i.old_eq
    simp only [hold, List.append_assoc, List.cons_append]
  now_eq := by
    have hnow := i.now_eq
    simp only [hnow, List.append_assoc, List.cons_append]
  inner_deeper := i.inner_deeper
  after_outside := by
    intro y hy
    cases hafter : i.after with
    | nil =>
      rw [hafter] at hy
      exact h y hy
    | cons z zs =>
      rw [hafter] at hy
      exact i.after_outside y (by rw [hafter]; exact hy)

/-- The element is the first that matches, level by level: those in front of it lie deeper, and those
behind it no less deep. -/
structure IntoFirst (i : Insertion old now) (p : Element → Bool) : Prop where
  meets : i.group.meets p = true
  front : ∀ x ∈ i.front, x.meets p = true → i.group.depth < x.depth
  behind : ∀ x ∈ i.inner ++ i.after, x.meets p = true → i.group.depth ≤ x.depth

/-- The element is the root: the first one at the top. -/
structure IntoRoot (i : Insertion old now) : Prop where
  top : i.group.above = []
  element : ∃ e, i.group.element? = some e
  front : ∀ x ∈ i.front, x.element? = none

end Insertion

def Insertion.atEnd (a : List Element) (name : Name) (attrs : List Attribute) (children ns : List Node)
    (child : Node) : Insertion (entries a (.element name attrs children :: ns))
      (entries a (.element name attrs (children ++ [child]) :: ns)) where
  front := []
  group := ⟨a, .element name attrs []⟩
  inner := entries (a ++ [⟨name, attrs⟩]) children
  after := entries a ns
  added := entries (a ++ [⟨name, attrs⟩]) [child]
  old_eq := entries_element
  now_eq := by rw [entries_element, entries_append]; rfl
  inner_deeper := fun _ hy => depth_lt_of_mem hy
  after_outside := fun y hy => by rw [Entry.depth, above_of_head? hy]; exact Nat.le_refl _

variable {step : Name} {child : Node} {depth : Nat}

theorem Node.appendAt?_leaf {n : Node} (h : n.isLeaf = true) :
    Node.appendAt? step child depth n = none := by
  cases n <;> first | rfl | cases h

/-- Where nothing is added at a depth no element there has the name. -/
theorem not_meets_of_appendAt? (h : appendAt? step child depth ns = none) (hx : x ∈ entries a ns)
    (hdepth : x.depth = a.length + depth) : x.meets (·.name.isMeantBy step) = false := by
  induction ns using forest_induction generalizing a depth with
  | nil => simp at hx
  | element name attrs children ns ihc ihn =>
    rw [entries_element, List.mem_cons, List.mem_append] at hx
    rw [appendAt?, Node.appendAt?.eq_def] at h
    cases depth with
    | zero =>
      by_cases hname : name.isMeantBy step = true
      · simp [hname] at h
      · simp only [hname, Bool.false_eq_true, if_false, Option.map_eq_none_iff] at h
        rcases hx with rfl | hx | hx
        · simpa [Entry.meets, Entry.element?] using hname
        · exact absurd (depth_lt_of_mem hx) (by omega)
        · exact ihn h hx hdepth
    | succ depth =>
      cases hchildren : appendAt? step child depth children with
      | some children' => simp [hchildren] at h
      | none =>
        simp only [hchildren, Option.map_none, Option.map_eq_none_iff] at h
        rcases hx with rfl | hx | hx
        · exact absurd hdepth (by simp [Entry.depth])
        · refine ihc hchildren hx ?_
          rw [hdepth, List.length_append, List.length_singleton]
          omega
        · exact ihn h hx hdepth
  | leaf n ns hn ihn =>
    rw [appendAt?, Node.appendAt?_leaf hn] at h
    rw [entries_leaf hn, List.mem_cons] at hx
    rcases hx with rfl | hx
    · rw [Entry.meets, element?_leaf hn]
      rfl
    · exact ihn (Option.map_eq_none_iff.1 h) hx hdepth

/-- A child that is added at a depth is added at the end of the first element there with the name. -/
theorem exists_of_appendAt? (a : List Element) (h : appendAt? step child depth ns = some ms) :
    ∃ i : Insertion (entries a ns) (entries a ms), i.group.meets (·.name.isMeantBy step) = true ∧
      i.group.depth = a.length + depth ∧ i.added = entries i.group.path [child] ∧
      ∀ x ∈ i.front, x.depth = a.length + depth → x.meets (·.name.isMeantBy step) = false := by
  induction ns using forest_induction generalizing a depth ms with
  | nil => cases h
  | element name attrs children ns ihc ihn =>
    rw [appendAt?, Node.appendAt?.eq_def] at h
    cases depth with
    | zero =>
      by_cases hname : name.isMeantBy step = true
      · simp only [hname, if_true, Option.some.injEq] at h
        subst h
        exact ⟨.atEnd a name attrs children ns child, hname, rfl, rfl, fun x hx => absurd hx List.not_mem_nil⟩
      · simp only [hname, Bool.false_eq_true, if_false, Option.map_eq_some_iff] at h
        obtain ⟨ns', hns, rfl⟩ := h
        obtain ⟨i, hmeets, hdepth, hadded, hfront⟩ := ihn a hns
        rw [entries_element, entries_element, ← List.cons_append, ← List.cons_append]
        refine ⟨i.prepend _, hmeets, hdepth, hadded, fun x hx hxd => ?_⟩
        rcases List.mem_append.1 hx with hx | hx
        · rcases List.mem_cons.1 hx with rfl | hx
          · simpa [Entry.meets, Entry.element?] using hname
          · exact absurd (depth_lt_of_mem hx) (by omega)
        · exact hfront x hx hxd
    | succ depth =>
      cases hchildren : appendAt? step child depth children with
      | some children' =>
        simp only [hchildren, Option.map_some, Option.some.injEq] at h
        subst h
        obtain ⟨i, hmeets, hdepth, hadded, hfront⟩ := ihc (a ++ [⟨name, attrs⟩]) hchildren
        rw [List.length_append, List.length_singleton, Nat.add_assoc, Nat.add_comm 1] at hdepth hfront
        have houtside : ∀ y, (entries a ns).head? = some y → y.depth ≤ i.group.depth := by
          intro y hy
          rw [hdepth, Entry.depth, above_of_head? hy]
          omega
        rw [entries_element, entries_element]
        refine ⟨(i.extend _ houtside).prepend [⟨a, .element name attrs []⟩], hmeets, hdepth, hadded,
          fun x hx hxd => ?_⟩
        rcases List.mem_cons.1 hx with rfl | hx
        · exact absurd hxd (by simp [Entry.depth])
        · exact hfront x hx hxd
      | none =>
        simp only [hchildren, Option.map_none, Option.map_eq_some_iff] at h
        obtain ⟨ns', hns, rfl⟩ := h
        obtain ⟨i, hmeets, hdepth, hadded, hfront⟩ := ihn a hns
        rw [entries_element, entries_element, ← List.cons_append, ← List.cons_append]
        refine ⟨i.prepend _, hmeets, hdepth, hadded, fun x hx hxd => ?_⟩
        rcases List.mem_append.1 hx with hx | hx
        · rcases List.mem_cons.1 hx with rfl | hx
          · exact absurd hxd (by simp [Entry.depth])
          · refine not_meets_of_appendAt? hchildren hx ?_
            rw [hxd, List.length_append, List.length_singleton]
            omega
        · exact hfront x hx hxd
  | leaf n ns hn ihn =>
    rw [appendAt?, Node.appendAt?_leaf hn] at h
    obtain ⟨ns', hns, rfl⟩ := Option.map_eq_some_iff.1 h
    obtain ⟨i, hmeets, hdepth, hadded, hfront⟩ := ihn a hns
    rw [entries_leaf hn, entries_leaf hn]
    refine ⟨i.prepend [⟨a, n⟩], hmeets, hdepth, hadded, fun x hx hxd => ?_⟩
    rcases List.mem_cons.1 hx with rfl | hx
    · rw [Entry.meets, element?_leaf hn]
      rfl
    · exact hfront x hx hxd

/-- The first number below a bound at which there is something: there is nothing at the smaller ones. -/
theorem findSome?_range {α : Type} {f : Nat → Option α} {n : Nat} {b : α}
    (h : (List.range n).findSome? f = some b) : ∃ k, f k = some b ∧ ∀ j < k, f j = none := by
  obtain ⟨before, k, behind, hrange, hk, hnone⟩ := List.findSome?_eq_some_iff.1 h
  refine ⟨k, hk, fun j hj => ?_⟩
  have hsorted := @List.pairwise_lt_range n
  have hkn : k < n := List.mem_range.1 (by rw [hrange]; simp)
  have hmem : j ∈ before ++ k :: behind := hrange ▸ List.mem_range.2 (Nat.lt_trans hj hkn)
  rw [hrange, List.pairwise_append, List.pairwise_cons] at hsorted
  rcases List.mem_append.1 hmem with hj' | hj'
  · exact hnone j hj'
  · rcases List.mem_cons.1 hj' with rfl | hj'
    · exact absurd hj (Nat.lt_irrefl _)
    · exact absurd (hsorted.2.1.1 j hj') (Nat.lt_asymm hj)

/-- **A child is added at the end of the first element with a name**, level by level. -/
theorem exists_of_appendTo? {step : Bytes} (h : appendTo? step child ns = some ms) :
    ∃ i : Insertion (entries [] ns) (entries [] ms),
      i.IntoFirst (·.name.isMeantBy (.ofPath step)) ∧ i.added = entries i.group.path [child] := by
  obtain ⟨depth, hdepth, hnone⟩ := findSome?_range h
  obtain ⟨i, hmeets, hgroup, hadded, hfront⟩ := exists_of_appendAt? [] hdepth
  rw [List.length_nil, Nat.zero_add] at hgroup hfront
  have hle : ∀ x ∈ entries [] ns, x.meets (·.name.isMeantBy (.ofPath step)) = true →
      i.group.depth ≤ x.depth := by
    intro x hx hmeets
    refine Nat.le_of_not_lt fun hlt => ?_
    rw [not_meets_of_appendAt? (hnone x.depth (hgroup ▸ hlt)) hx (Nat.zero_add _).symm] at hmeets
    cases hmeets
  refine ⟨i, ⟨hmeets, fun x hx hxm => ?_, fun x hx => hle x (i.mem_old_iff.2 (.inr (.inr hx)))⟩, hadded⟩
  refine Nat.lt_of_le_of_ne (hle x (i.mem_old_iff.2 (.inl hx)) hxm) fun heq => ?_
  rw [hfront x hx (heq ▸ hgroup)] at hxm
  cases hxm

theorem not_meets_of_appendTo? {step : Bytes} (h : appendTo? step child ns = none)
    (hx : x ∈ entries [] ns) : x.meets (·.name.isMeantBy (.ofPath step)) = false := by
  cases he : x.element? with
  | none =>
    rw [Entry.meets, he]
    rfl
  | some e =>
    have hdepth := List.findSome?_eq_none_iff.1 h x.depth
      (List.mem_range.2 (depth_lt_length_levels hx he))
    exact not_meets_of_appendAt? hdepth hx (Nat.zero_add _).symm

theorem appendToRoot_insertion {root : Name} (h : rootName? ns = some root) :
    ∃ i : Insertion (entries [] ns) (entries [] (appendToRoot child ns)),
      i.IntoRoot ∧ i.added = entries i.group.path [child] := by
  induction ns using forest_induction with
  | nil => cases h
  | element name attrs children ns _ _ =>
    exact ⟨.atEnd [] name attrs children ns child, ⟨rfl, ⟨_, rfl⟩, fun x hx => absurd hx List.not_mem_nil⟩, rfl⟩
  | leaf n ns hn ihn =>
    have hstep : appendToRoot child (n :: ns) = n :: appendToRoot child ns := by
      cases n <;> first | rfl | cases hn
    rw [rootName?_leaf hn] at h
    obtain ⟨i, ⟨htop, helement, hfront⟩, hadded⟩ := ihn h
    rw [hstep, entries_leaf hn, entries_leaf hn]
    refine ⟨i.prepend [⟨[], n⟩], ⟨htop, helement, fun x hx => ?_⟩, hadded⟩
    rcases List.mem_cons.1 hx with rfl | hx
    · exact element?_leaf hn
    · exact hfront x hx

end Flowsmith.Xml
