import Flowsmith.Flow.Expression

/-!
# The name of a condition

A condition is named by the first one in document order that carries the attribute, among itself and the
conditions that are reached from it through conditions. A value that is blank counts like any other.

* `conditionAt?` : the condition at a place; in lexicographic order, places are in document order;
* `attr?_eq_none_of_conditionAt?` : where there is no name, no condition carries the attribute;
* `FirstAt` : the first condition that carries the attribute;
* `exists_firstAt` : where there is a name, it is the value of that condition;
* `conditionName?_first` : what name a condition has, and when it has none.
-/

namespace Flowsmith.Flow

open Definition (Node)

variable {key v w : Bytes} {n m c : Node} {i : Nat} {place earlier : List Nat}

/-! ## Places -/

/-- The condition at a place, seen from a node. A place tells which child is gone into, one level after
the other; nothing but conditions is gone into. The empty place is that of the node itself. -/
def conditionAt? : Node → List Nat → Option Node
  | n, [] => some n
  | n, i :: place => (n.children[i]?.filter (·.kind = .condition)).bind (conditionAt? · place)

theorem conditionAt?_cons : conditionAt? n (i :: place) = some m ↔
    ∃ c, n.children[i]? = some c ∧ c.kind = .condition ∧ conditionAt? c place = some m := by
  simp only [conditionAt?, Option.bind_eq_some_iff, Option.filter_eq_some_iff, decide_eq_true_eq,
    and_assoc]

/-! ## Names on one level -/

theorem conditionName?_of_attr (h : n.attr? key = some v) : conditionName? key n = some v.trim := by
  cases n
  rw [conditionName?, h]

theorem conditionName?_of_no_attr (h : n.attr? key = none) :
    conditionName? key n = firstConditionName? key n.children := by
  cases n
  rw [conditionName?, h]
  rfl

theorem conditionName?_eq_none_iff : conditionName? key n = none ↔
    n.attr? key = none ∧ firstConditionName? key n.children = none := by
  cases hattr : n.attr? key with
  | some v => simp [conditionName?_of_attr hattr]
  | none => simp [conditionName?_of_no_attr hattr]

theorem firstConditionName?_cons (n : Node) (ns : List Node) : firstConditionName? key (n :: ns) =
    (if n.kind = .condition then conditionName? key n else none).or (firstConditionName? key ns) := by
  rw [firstConditionName?]
  split <;> simp [*]

theorem firstConditionName?_eq_none_iff {ns : List Node} : firstConditionName? key ns = none ↔
    ∀ c ∈ ns, c.kind = .condition → conditionName? key c = none := by
  induction ns with
  | nil => simp [firstConditionName?]
  | cons n ns ih => simp [firstConditionName?_cons, ih]

/-! ## No name -/

/-- Where a name is looked for in vain, no condition carries the attribute. -/
theorem attr?_eq_none_of_conditionAt? (h : conditionName? key n = none)
    (hm : conditionAt? n place = some m) : m.attr? key = none := by
  obtain ⟨hattr, hbelow⟩ := conditionName?_eq_none_iff.1 h
  induction place generalizing n with
  | nil =>
    cases hm
    exact hattr
  | cons i place ih =>
    obtain ⟨c, hc, hk, hm⟩ := conditionAt?_cons.1 hm
    have hname := firstConditionName?_eq_none_iff.1 hbelow c (List.mem_of_getElem? hc) hk
    obtain ⟨hattr, hbelow⟩ := conditionName?_eq_none_iff.1 hname
    exact ih hname hm hattr hbelow

/-! ## The first that carries the attribute -/

/-- The condition at a place carries the attribute with a value, and none at an earlier place carries
it. -/
structure FirstAt (key : Bytes) (n : Node) (place : List Nat) (v : Bytes) : Prop where
  carries : ∃ m, conditionAt? n place = some m ∧ m.attr? key = some v
  before : ∀ earlier m, earlier < place → conditionAt? n earlier = some m → m.attr? key = none

namespace FirstAt

/-- Nothing is earlier than the node itself. -/
theorem own (h : n.attr? key = some v) : FirstAt key n [] v where
  carries := ⟨n, rfl, h⟩
  before _ _ hlt _ := absurd hlt (List.not_lt_nil _)

/-- The first below a node that does not carry the attribute lies in the first child that has a name. -/
theorem below (hattr : n.attr? key = none) (hc : n.children[i]? = some c) (hk : c.kind = .condition)
    (hfirst : FirstAt key c place v) (hbefore : firstConditionName? key (n.children.take i) = none) :
    FirstAt key n (i :: place) v where
  carries := by
    obtain ⟨m, hm, hv⟩ := hfirst.carries
    exact ⟨m, conditionAt?_cons.2 ⟨c, hc, hk, hm⟩, hv⟩
  before
    | [], m, _, hm => by
      cases hm
      exact hattr
    | j :: earlier, m, hlt, hm => by
      obtain ⟨d, hd, hkd, hm⟩ := conditionAt?_cons.1 hm
      rcases List.cons_lt_cons_iff.1 hlt with hj | ⟨rfl, hlater⟩
      · have hmem : d ∈ n.children.take i :=
          List.mem_of_getElem? ((List.getElem?_take_of_lt hj).trans hd)
        exact attr?_eq_none_of_conditionAt? (firstConditionName?_eq_none_iff.1 hbefore d hmem hkd) hm
      · obtain rfl : d = c := Option.some.inj (hd.symm.trans hc)
        exact hfirst.before earlier m hlater hm

theorem not_lt (h : FirstAt key n place v) (h' : FirstAt key n earlier w) : ¬ earlier < place := by
  intro hlt
  obtain ⟨m, hm, hw⟩ := h'.carries
  rw [h.before earlier m hlt hm] at hw
  cases hw

/-- Two places that are first are the same, since neither is earlier than the other. -/
theorem value_eq (h : FirstAt key n place v) (h' : FirstAt key n earlier w) : v = w := by
  obtain rfl : place = earlier :=
    List.le_antisymm (List.not_lt.1 (h.not_lt h')) (List.not_lt.1 (h'.not_lt h))
  obtain ⟨m, hm, hv⟩ := h.carries
  obtain ⟨m', hm', hw⟩ := h'.carries
  rw [hm] at hm'
  cases hm'
  exact Option.some.inj (hv.symm.trans hw)

end FirstAt

/-! A name that is found in a list comes from one of its conditions, and those before it have none. -/

mutual

/-- A name is the value of the first condition that carries the attribute. -/
theorem exists_firstAt : ∀ (n : Node) {name : Bytes}, conditionName? key n = some name →
    ∃ place v, FirstAt key n place v ∧ v.trim = name
  | .mk kind tag space attrs children, name, h => by
    cases hattr : (Node.mk kind tag space attrs children).attr? key with
    | some v =>
      rw [conditionName?_of_attr hattr] at h
      exact ⟨[], v, .own hattr, Option.some.inj h⟩
    | none =>
      rw [conditionName?_of_no_attr hattr] at h
      obtain ⟨i, c, hc, hk, hbefore, place, v, hfirst, hv⟩ := exists_firstAt_below children h
      exact ⟨i :: place, v, hfirst.below hattr hc hk hbefore, hv⟩

theorem exists_firstAt_below : ∀ (ns : List Node) {name : Bytes},
    firstConditionName? key ns = some name → ∃ i c, ns[i]? = some c ∧ c.kind = .condition ∧
      firstConditionName? key (ns.take i) = none ∧ ∃ place v, FirstAt key c place v ∧ v.trim = name
  | [], _, h => by cases h
  | n :: ns, name, h => by
    rw [firstConditionName?_cons, Option.or_eq_some_iff] at h
    rcases h with h | ⟨hnone, h⟩
    · rw [Option.ite_none_right_eq_some] at h
      exact ⟨0, n, rfl, h.1, rfl, exists_firstAt n h.2⟩
    · obtain ⟨i, c, hc, hk, hbefore, hfirst⟩ := exists_firstAt_below ns h
      refine ⟨i + 1, c, hc, hk, ?_, hfirst⟩
      rw [List.take_succ_cons, firstConditionName?_cons, hnone, hbefore, Option.none_or]

end

/-- The first condition that carries the attribute gives the name. -/
theorem FirstAt.conditionName?_eq (h : FirstAt key n place v) :
    conditionName? key n = some v.trim := by
  cases hname : conditionName? key n with
  | none =>
    obtain ⟨m, hm, hv⟩ := h.carries
    rw [attr?_eq_none_of_conditionAt? hname hm] at hv
    cases hv
  | some name =>
    obtain ⟨_, w, hfirst, rfl⟩ := exists_firstAt n hname
    rw [h.value_eq hfirst]

/-- **The name of a condition is the first one in document order.** A condition has no name just when
no condition that is reached from it through conditions, itself included, carries the attribute. Else
its name is the value, without the blanks at its ends, of the first of them that does, also when nothing
is left of that value. -/
theorem conditionName?_first (key : Bytes) (n : Node) :
    (conditionName? key n = none ↔
      ∀ place m, conditionAt? n place = some m → m.attr? key = none) ∧
    ∀ name, conditionName? key n = some name ↔ ∃ place v, FirstAt key n place v ∧ v.trim = name := by
  refine ⟨⟨?_, ?_⟩, fun name => ⟨exists_firstAt n, ?_⟩⟩
  · intro h place m hm
    exact attr?_eq_none_of_conditionAt? h hm
  · intro h
    cases hname : conditionName? key n with
    | none => rfl
    | some name =>
      obtain ⟨place, v, hfirst, -⟩ := exists_firstAt n hname
      obtain ⟨m, hm, hv⟩ := hfirst.carries
      rw [h place m hm] at hv
      cases hv
  · rintro ⟨place, v, hfirst, rfl⟩
    exact hfirst.conditionName?_eq

-- a blank value in front of a name
example : conditionName? "Condition"
    (.mk .condition "Both" [] [] [.mk .condition "Code" [] [("Condition", " ")] [],
      .mk .condition "Code" [] [("Condition", "IsReady")] []]) = some [] := by cbv

end Flowsmith.Flow
