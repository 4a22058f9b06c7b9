import Flowsmith.Proofs.Flow.Depth

/-!
# Walks that come to their end

A walk that comes to its end never had to close a conditional above depth zero, whatever depth it began
at. So what it wrote is what its definition is lowered to.

* `closable_of_runNode`, `closableAll_of_runNodes` : a walk that succeeds stays below the top;
* `expression_ok_iff_lowers` : the definitions with an expression, from any base depth, and what their
  expression is.
-/

namespace Flowsmith.Flow

open Definition (Node Kind Bindings)
open Expression (ofText)

theorem closable_of_condition {d : Int} {n : Node} (hk : n.kind = .condition) : Closable d n := by
  obtain ⟨kind, tag, space, attrs, children⟩ := n
  obtain rfl : kind = .condition := hk
  trivial

theorem depth_ne_zero_of_dedent {st st' : State} (h : st.dedent = .ok st') : st.depth ≠ 0 := by
  unfold State.dedent at h
  split at h
  · cases h
  · assumption

/-! The branches of a conditional lie at its own depth; in front of a second one the walk is one level
deeper. -/

mutual

theorem closable_of_runNode (o : Options) (b : Bindings) : ∀ (n : Node) (st st' : State),
    runNode o b n st = .ok st' → Closable st.depth n
  | .mk .sequence tag space attrs children, st, st', h => by
    simp only [runNode] at h
    exact closableAll_of_runNodes o b children st st' h
  | .mk .conditional tag space attrs children, st, st', h => by
    obtain ⟨st₁, st₂, hcheck, hbranches, hdedent, -⟩ := runNode_conditional h
    have hdepth := depth_runBranches o b true children _ st₁ hbranches
    have hup := depth_ne_zero_of_dedent hdedent
    refine ⟨?_, closableAll_of_runBranches o b true children
      { st with pending := false, conditionals := st.conditionals + 1 } st₁ st.depth
      (checkBranches_ok hcheck).1 (Int.add_zero _).symm hbranches⟩
    cases children with
    | nil => simpa using (checkBranches_ok hcheck).2
    | cons c cs => rwa [hdepth] at hup
  | .mk .step _ _ _ _, _, _, _ => trivial
  | .mk .branch tag space attrs children, st, st', h => by
    simp only [runNode] at h
    cases h
  | .mk .condition _ _ _ _, _, _, _ => trivial
  | .mk .unknown _ _ _ _, _, _, _ => trivial

theorem closableAll_of_runNodes (o : Options) (b : Bindings) : ∀ (ns : List Node) (st st' : State),
    runNodes o b ns st = .ok st' → ClosableAll st.depth ns
  | [], _, _, _ => trivial
  | n :: ns, st, st', h => by
    rw [runNodes] at h
    obtain ⟨st₁, hn, hns⟩ := bind_eq_ok h
    refine ⟨closable_of_runNode o b n st st₁ hn, ?_⟩
    rw [← depth_runNode o b n st st₁ hn]
    exact closableAll_of_runNodes o b ns st₁ st' hns

theorem closableAll_of_runBranches (o : Options) (b : Bindings) : ∀ (first : Bool) (ns : List Node)
    (st st' : State) (d : Int), (∀ n ∈ ns, n.kind = .branch) →
    st.depth = d + (Stretch.enter first).floor → runBranches o b first ns st = .ok st' →
    ClosableAll d ns
  | _, [], _, _, _, _, _, _ => trivial
  | first, n :: ns, st, st', d, hk, hd, h => by
    rw [runBranches] at h
    obtain ⟨st₁, hn, hns⟩ := bind_eq_ok h
    refine ⟨closable_of_runBranch o b first n st st₁ d (hk n List.mem_cons_self) hd hn, ?_⟩
    refine closableAll_of_runBranches o b false ns st₁ st' d
      (fun m hm => hk m (List.mem_cons_of_mem _ hm)) ?_ hns
    rw [depth_runBranch o b first n st st₁ hn, hd]
    cases first <;> simp only [Stretch.rise, Stretch.floor] <;> omega

theorem closable_of_runBranch (o : Options) (b : Bindings) : ∀ (first : Bool) (n : Node)
    (st st' : State) (d : Int), n.kind = .branch → st.depth = d + (Stretch.enter first).floor →
    runBranch o b first n st = .ok st' → Closable d n
  | first, .mk kind tag space attrs children, st, st', d, hk, hd, h => by
    obtain rfl : kind = .branch := hk
    simp only [runBranch] at h
    obtain ⟨st₁, hopen, h⟩ := bind_eq_ok h
    obtain ⟨st₂, hitems, -⟩ := bind_eq_ok h
    have hdepth : st₁.depth = d + 1 := by
      rw [depth_openBranch hopen, hd]
      cases first <;> simp only [Stretch.rise, Stretch.floor] <;> omega
    change ClosableAll (d + 1) children
    rw [← hdepth]
    exact closableAll_of_runItems o b first _ children st₁ st₂ hitems

theorem closableAll_of_runItems (o : Options) (b : Bindings) : ∀ (first : Bool) (id : Bytes)
    (ns : List Node) (st st' : State), runItems o b first id ns st = .ok st' →
    ClosableAll st.depth ns
  | _, _, [], _, _, _ => trivial
  | first, id, n :: ns, st, st', h => by
    by_cases hk : n.kind = .condition
    · rw [runItems, if_pos hk] at h
      split at h
      · cases h
      · obtain ⟨st₁, hcondition, hns⟩ := bind_eq_ok h
        refine ⟨closable_of_condition hk, ?_⟩
        rw [← depth_runCondition hcondition]
        exact closableAll_of_runItems o b first id ns st₁ st' hns
    · rw [runItems_activity o b first id ns st hk] at h
      obtain ⟨st₁, hbefore, h⟩ := bind_eq_ok h
      obtain ⟨st₂, hn, hns⟩ := bind_eq_ok h
      have hdepth := depth_beforeItem hbefore
      refine ⟨?_, ?_⟩
      · rw [← hdepth]
        exact closable_of_runNode o b n st₁ st₂ hn
      · rw [← hdepth, ← depth_runNode o b n st₁ st₂ hn]
        exact closableAll_of_runItems o b first id ns st₂ st' hns

end

/-- A definition has an expression exactly when it can be lowered and the walk stays below the top; the
expression is the receiver with the piece of the activities below the root. -/
theorem expression_ok_iff_lowers (o : Options) (b : Bindings) (root : Node) (e : Expression) :
    expression o ⟨some root, b⟩ = .ok e ↔
      root.kind = .sequence ∧ ClosableAll o.baseDepth root.children ∧
        ∃ p, lowerNodes o b o.baseDepth strayCondition root.children = .ok p ∧
          e = ofText o.receiver ++ p := by
  constructor
  · intro h
    obtain ⟨hk, hclosable⟩ : root.kind = .sequence ∧ ClosableAll o.baseDepth root.children := by
      unfold expression at h
      dsimp only at h
      split at h
      · cases h
      · rename_i hk
        obtain ⟨st, hst, -⟩ := bind_eq_ok h
        exact ⟨Decidable.not_not.1 hk, closableAll_of_runNodes o b root.children _ st hst⟩
    rw [expression_eq_of_closable o b root hclosable hk] at h
    obtain ⟨q, p, hq, hp, rfl⟩ := join_eq_ok h
    cases hq
    exact ⟨hk, hclosable, p, hp, rfl⟩
  · rintro ⟨hk, hclosable, p, hp, rfl⟩
    rw [expression_eq_of_closable o b root hclosable hk, hp, join_ok]

end Flowsmith.Flow
