import Flowsmith.Proofs.Flow.Chain
import Flowsmith.Proofs.Outcome
import Flowsmith.Proofs.Source.Turns

/-!
# The brackets of an expression

An expression closes every bracket that it opens, as long as no conditional takes the place of a
condition. The walk keeps one bracket open while a condition is still to come.

* `Spelled` : the names that an activity writes are dotted names, and a conditional has its place
  filled;
* `Fits` : what the walk has written reads as code;
* `turns_expression` : an expression reads as code that closes what it opens.
-/

namespace Flowsmith.Flow

open Definition (Node Kind Bindings)
open Source (Turns IsDotted IsWord Stops)

/-- What an activity writes can be read: the type of a step and the name that a condition gives are
dotted names, and no conditional takes the place of the condition of another. -/
structure Spelled (o : Options) (b : Bindings) (n : Node) : Prop where
  step : isWritten o n = true → ∀ type, stepType b n = .ok type → IsDotted type
  condition : n.kind = .condition → nameOf o n ≠ [] → IsDotted (nameOf o n)
  conditional : n.kind = .conditional → ∀ first, n.children.head? = some first →
    givenName o first.children = [] → leadsToConditional first.children = false

/-- What the walk has written reads as code; a bracket is open while a condition is to come. -/
def Fits (st : State) : Prop :=
  ∀ r, (st.pending = false → Stops r) → Turns [] (if st.pending then [")"] else []) st.out r

/-! ## Marks -/

theorem turns_stepCall {type : Bytes} (h : IsDotted type) (r : Bytes) :
    Turns [] [] (stepCall type) r := by
  have hdo : Turns [] [] (".Do<" : Bytes) (type ++ ((">()" : Bytes) ++ r)) :=
    Source.turns_fixed [.ofMark ".", .ofWord "Do", .ofMark "<"] (by decide +kernel) (by decide)
      (by decide) _
  have hend : Turns [] [] (">()" : Bytes) r :=
    Source.turns_fixed [.ofMark ">", .ofMark "(", .ofMark ")"] (by decide +kernel) (by decide)
      (by decide) _
  exact (hdo.append (Source.turns_dotted [] h (Source.stops_cons _ (by decide)))).append hend

theorem turns_elseMark (r : Bytes) : Turns [] [] elseMark r :=
  Source.turns_fixed [.ofMark ".", .ofWord "Else", .ofMark "(", .ofMark ")"] (by decide +kernel)
    (by decide) (by decide) r

theorem turns_endMark (r : Bytes) : Turns [] [] endMark r :=
  Source.turns_fixed [.ofMark ".", .ofWord "EndIf", .ofMark "(", .ofMark ")"] (by decide +kernel)
    (by decide) (by decide) r

/-- The mark of a conditional leaves the bracket open that the condition closes. -/
theorem turns_ifMark (r : Bytes) : Turns [] [")"] ifMark r :=
  Source.turns_fixed
    [.ofMark ".", .ofWord "If", .ofMark "(", .ofMark "(", .ofMark ")", .ofMark "=>"]
    (by decide +kernel) (by decide) (by decide) r

theorem turns_conditionCall {name : Bytes} (h : IsDotted name) (r : Bytes) :
    Turns [")"] [] (name ++ ("())" : Bytes)) r := by
  have hcall : Turns [")"] [] ("())" : Bytes) r :=
    Source.turns_fixed [.ofMark "(", .ofMark ")", .ofMark ")"] (by decide +kernel) (by decide)
      (by decide) r
  exact (Source.turns_dotted [")"] h (Source.stops_cons _ (by decide))).append hcall

/-! ## Steps of the walk -/

theorem padding_spaces {width depth : Int} {pad : Bytes} (h : padding? width depth = some pad) :
    ∃ n, pad = Bytes.spaces n := by
  unfold padding? at h
  dsimp only at h
  split at h
  · exact ⟨_, (Option.some.inj h).symm⟩
  · cases h

theorem isGapText_spaces (n : Nat) : Source.IsGapText (Bytes.spaces n) := fun c hc => by
  rw [List.eq_of_mem_replicate hc]
  decide

theorem turns_line {o : Options} {st st' : State} {s r : Bytes} {stack : List Bytes}
    (h : st.line o s = .ok st') (hf : Fits st) (hp : st.pending = false) (hs : Turns [] stack s r) :
    st'.pending = false ∧ Turns [] stack st'.out r := by
  unfold State.line at h
  split at h
  · rename_i pad hpad
    cases h
    obtain ⟨n, rfl⟩ := padding_spaces hpad
    refine ⟨hp, ?_⟩
    have hout : Turns [] [] st.out ([Bytes.newline] ++ Bytes.spaces n ++ s ++ r) := by
      have := hf ([Bytes.newline] ++ Bytes.spaces n ++ s ++ r)
        fun _ => Source.stops_cons _ (by decide)
      rwa [hp] at this
    have hnew : Turns [] [] [Bytes.newline] (Bytes.spaces n ++ (s ++ r)) := Source.turns_newline _ _
    have hgap : Turns [] [] (Bytes.spaces n) (s ++ r) :=
      Source.turns_gap _ (isGapText_spaces n) _
    exact hout.append ((hnew.append hgap).append hs)
  · cases h

theorem fits_line {o : Options} {st st' : State} {s : Bytes} (h : st.line o s = .ok st') (hf : Fits st)
    (hp : st.pending = false) (hs : ∀ r, Turns [] [] s r) : Fits st' ∧ st'.pending = false := by
  have hp' : st'.pending = false := (turns_line h hf hp (hs [])).1
  refine ⟨fun r _ => ?_, hp'⟩
  rw [hp']
  exact (turns_line h hf hp (hs r)).2

theorem fits_closeMissing {o : Options} {id : Bytes} {st st' : State}
    (h : closeMissing o id st = .ok st') (hf : Fits st) : Fits st' ∧ st'.pending = false := by
  unfold closeMissing at h
  split at h
  · rename_i hp
    cases h
    exact ⟨hf, by simpa using hp⟩
  · rename_i hp
    split at h
    · cases h
    · cases h
      refine ⟨fun r hr => ?_, rfl⟩
      have hp' : st.pending = true := by simpa using hp
      have hout := hf ((")" : Bytes) ++ r) fun h => absurd h (by simp [hp'])
      rw [hp'] at hout
      have hclose : Turns [")"] [] (")" : Bytes) r :=
        Source.turns_fixed [.ofMark ")"] (by decide +kernel) (by decide) (by decide) r
      exact hout.append hclose

theorem fits_runCondition {o : Options} {id : Bytes} {n : Node} {st st' : State}
    (h : runCondition o id n st = .ok st') (hf : Fits st) (hname : nameOf o n ≠ [] → IsDotted (nameOf o n)) :
    Fits st' ∧ (st'.pending = true → nameOf o n = []) ∧ st.pending = true := by
  unfold runCondition at h
  split at h
  · cases h
  · rename_i hp
    have hp' : st.pending = true := by simpa using hp
    dsimp only at h
    split at h
    · rename_i hempty
      cases h
      exact ⟨hf, fun _ => List.isEmpty_iff.1 hempty, hp'⟩
    · rename_i hempty
      cases h
      refine ⟨fun r hr => ?_, fun h => (by cases h), hp'⟩
      have hout := hf (nameOf o n ++ ("())" : Bytes) ++ r) fun h => absurd h (by simp [hp'])
      rw [hp'] at hout
      exact hout.append (turns_conditionCall (hname fun h => hempty (by
        rw [nameOf] at h
        rw [h]
        rfl)) r)

theorem fits_dedent {st st' : State} (h : st.dedent = .ok st') (hf : Fits st) :
    Fits st' ∧ st'.pending = st.pending := by
  unfold State.dedent at h
  split at h
  · cases h
  · cases h
    exact ⟨hf, rfl⟩

theorem fits_openBranch {o : Options} {first : Bool} {st st' : State}
    (h : openBranch o first st = .ok st') (hf : Fits st) (hp : st.pending = false) :
    Fits st' ∧ st'.pending = first := by
  unfold openBranch at h
  cases first with
  | true =>
    rw [if_pos rfl] at h
    obtain ⟨mid, hline, h⟩ := bind_eq_ok h
    cases h
    exact ⟨fun r _ => (turns_line hline hf hp (turns_ifMark r)).2, rfl⟩
  | false =>
    rw [if_neg (by simp)] at h
    obtain ⟨up, hup, h⟩ := bind_eq_ok h
    obtain ⟨mid, hline, h⟩ := bind_eq_ok h
    cases h
    obtain ⟨hup', hp'⟩ := fits_dedent hup hf
    obtain ⟨hmid, hpmid⟩ := fits_line hline hup' (hp'.trans hp) turns_elseMark
    exact ⟨hmid, hpmid⟩

theorem fits_runStep {o : Options} {b : Bindings} {n : Node} {st st' : State}
    (h : runStep o b n st = .ok st') (hf : Fits st) (hp : st.pending = false) (hk : n.kind = .step)
    (hn : Spelled o b n) : Fits st' ∧ st'.pending = false := by
  unfold runStep at h
  split at h
  · cases h
    exact ⟨hf, hp⟩
  · rename_i hfault
    obtain ⟨type, htype, h⟩ := bind_eq_ok h
    obtain ⟨mid, hline, h⟩ := bind_eq_ok h
    cases h
    have hwritten : isWritten o n = true := by
      rw [isWritten, decide_eq_true hk, Bool.true_and, Bool.not_eq_true']
      exact Bool.eq_false_iff.2 hfault
    obtain ⟨hmid, hpmid⟩ := fits_line hline hf hp (turns_stepCall (hn.step hwritten type htype))
    exact ⟨hmid, hpmid⟩

/-! ## The walk -/

/-- All activities that are reached can be read. -/
def AllSpelled (o : Options) (b : Bindings) (xs : List (Int × Node)) : Prop :=
  ∀ x ∈ xs, Spelled o b x.2

theorem AllSpelled.cons {o : Options} {b : Bindings} {d : Int} {n : Node} {ns : List Node}
    (h : AllSpelled o b (reachedAll d (n :: ns))) :
    AllSpelled o b (reached d n) ∧ AllSpelled o b (reachedAll d ns) := by
  rw [reachedAll] at h
  exact ⟨fun x hx => h x (List.mem_append_left _ hx), fun x hx => h x (List.mem_append_right _ hx)⟩

theorem AllSpelled.own {o : Options} {b : Bindings} {d : Int} {n : Node}
    (h : AllSpelled o b (reached d n)) : Spelled o b n := by
  obtain ⟨kind, tag, space, attrs, children⟩ := n
  cases kind <;> exact h _ List.mem_cons_self

theorem AllSpelled.children {o : Options} {b : Bindings} {d d' : Int} {n : Node} {ns : List Node}
    (h : AllSpelled o b (reached d n)) (hns : reached d n = (d, n) :: reachedAll d' ns) :
    AllSpelled o b (reachedAll d' ns) := by
  rw [hns] at h
  exact fun x hx => h x (List.mem_cons_of_mem _ hx)

mutual

theorem runNode_fits (o : Options) (b : Bindings) : ∀ (d : Int) (n : Node) (st st' : State),
    AllSpelled o b (reached d n) → Fits st → st.pending = false → runNode o b n st = .ok st' →
    Fits st' ∧ st'.pending = false
  | d, .mk .sequence tag space attrs children, st, st', hn, hf, hp, h => by
    simp only [runNode] at h
    exact runNodes_fits o b d children st st' (hn.children (by simp only [reached])) hf hp h
  | d, .mk .conditional tag space attrs children, st, st', hn, hf, hp, h => by
    simp only [runNode] at h
    obtain ⟨u, hcheck, h⟩ := bind_eq_ok h
    obtain ⟨mid, hmid, h⟩ := bind_eq_ok h
    obtain ⟨up, hup, h⟩ := bind_eq_ok h
    have hfilled : ∀ first, children.head? = some first → givenName o first.children = [] →
        leadsToConditional first.children = false := hn.own.conditional rfl
    have hstart : Fits { st with pending := false, conditionals := st.conditionals + 1 } := by
      intro r hr
      have := hf r fun _ => hr rfl
      rwa [hp] at this
    obtain ⟨hmid', hpmid⟩ := runBranches_fits o b d true children _ mid
      (hn.children (by simp only [reached])) hstart rfl (checkBranches_ok hcheck).1
      (fun _ => hfilled) hmid
    obtain ⟨hup', hpup⟩ := fits_dedent hup hmid'
    exact fits_line h hup' (hpup.trans hpmid) turns_endMark
  | d, .mk .step tag space attrs children, st, st', hn, hf, hp, h => by
    simp only [runNode] at h
    exact fits_runStep h hf hp rfl hn.own
  | d, .mk .branch tag space attrs children, st, st', _, _, _, h => by
    simp only [runNode] at h
    cases h
  | d, .mk .condition tag space attrs children, st, st', _, _, _, h => by
    simp only [runNode] at h
    cases h
  | d, .mk .unknown tag space attrs children, st, st', _, _, _, h => by
    simp only [runNode] at h
    cases h

theorem runNodes_fits (o : Options) (b : Bindings) : ∀ (d : Int) (ns : List Node) (st st' : State),
    AllSpelled o b (reachedAll d ns) → Fits st → st.pending = false → runNodes o b ns st = .ok st' →
    Fits st' ∧ st'.pending = false
  | d, [], st, st', _, hf, hp, h => by
    simp only [runNodes] at h
    cases h
    exact ⟨hf, hp⟩
  | d, n :: ns, st, st', hn, hf, hp, h => by
    simp only [runNodes] at h
    obtain ⟨mid, hmid, h⟩ := bind_eq_ok h
    obtain ⟨hmid', hpmid⟩ := runNode_fits o b d n st mid hn.cons.1 hf hp hmid
    exact runNodes_fits o b d ns mid st' hn.cons.2 hmid' hpmid h

theorem runBranches_fits (o : Options) (b : Bindings) :
    ∀ (d : Int) (first : Bool) (ns : List Node) (st st' : State),
    AllSpelled o b (reachedAll d ns) → Fits st → st.pending = false → (∀ n ∈ ns, n.kind = .branch) →
    (first = true → ∀ n, ns.head? = some n → givenName o n.children = [] →
      leadsToConditional n.children = false) →
    runBranches o b first ns st = .ok st' → Fits st' ∧ st'.pending = false
  | d, first, [], st, st', _, hf, hp, _, _, h => by
    simp only [runBranches] at h
    cases h
    exact ⟨hf, hp⟩
  | d, first, n :: ns, st, st', hn, hf, hp, hkind, hfilled, h => by
    simp only [runBranches] at h
    obtain ⟨mid, hmid, h⟩ := bind_eq_ok h
    obtain ⟨hmid', hpmid⟩ := runBranch_fits o b d first n st mid hn.cons.1 hf hp
      (hkind n List.mem_cons_self) (fun hfirst => hfilled hfirst n rfl) hmid
    exact runBranches_fits o b d false ns mid st' hn.cons.2 hmid' hpmid
      (fun m hm => hkind m (List.mem_cons_of_mem _ hm)) (fun hfirst => by cases hfirst) h

theorem runBranch_fits (o : Options) (b : Bindings) :
    ∀ (d : Int) (first : Bool) (n : Node) (st st' : State),
    AllSpelled o b (reached d n) → Fits st → st.pending = false → n.kind = .branch →
    (first = true → givenName o n.children = [] → leadsToConditional n.children = false) →
    runBranch o b first n st = .ok st' → Fits st' ∧ st'.pending = false
  | d, first, .mk kind tag space attrs children, st, st', hn, hf, hp, hkind, hfilled, h => by
    simp only [Node.kind] at hkind
    subst hkind
    simp only [runBranch] at h
    obtain ⟨inner, hinner, h⟩ := bind_eq_ok h
    obtain ⟨last, hlast, h⟩ := bind_eq_ok h
    obtain ⟨hinner', hpinner⟩ := fits_openBranch hinner hf hp
    obtain ⟨hlast', hplast⟩ := runItems_fits o b (d + 1) first _ children inner last
      (hn.children (by simp only [reached])) hinner' (fun hfirst => hpinner.trans hfirst)
      (fun hpend => hfilled (hpinner.symm.trans hpend)) hlast
    cases first with
    | true => exact fits_closeMissing h hlast'
    | false =>
      cases h
      exact ⟨hlast', hplast rfl⟩

theorem runItems_fits (o : Options) (b : Bindings) :
    ∀ (d : Int) (first : Bool) (id : Bytes) (ns : List Node) (st st' : State),
    AllSpelled o b (reachedAll d ns) → Fits st → (first = false → st.pending = false) →
    (st.pending = true → givenName o ns = [] → leadsToConditional ns = false) →
    runItems o b first id ns st = .ok st' → Fits st' ∧ (first = false → st'.pending = false)
  | d, first, id, [], st, st', _, hf, hp, _, h => by
    simp only [runItems] at h
    cases h
    exact ⟨hf, hp⟩
  | d, first, id, n :: ns, st, st', hn, hf, hp, hfilled, h => by
    simp only [runItems] at h
    split at h
    · rename_i hk
      split at h
      · cases h
      · rename_i hfirst
        obtain ⟨mid, hmid, h⟩ := bind_eq_ok h
        obtain ⟨hmid', hname, hpmid⟩ := fits_runCondition hmid hf (hn.cons.1.own.condition hk)
        refine runItems_fits o b d first id ns mid st' hn.cons.2 hmid'
          (fun hnot => absurd (by simp [hnot]) hfirst) (fun hpend hgiven => ?_) h
        -- a condition without a name leaves the place to what follows it
        have hsame := givenName_of_unnamed ns hk (hname hpend)
        rw [← leadsToConditional_of_condition ns hk]
        exact hfilled hpmid (hsame.trans hgiven)
    · rename_i hk
      have hactivity : ∃ mid, Fits mid ∧ mid.pending = false ∧
          (runNode o b n mid >>= runItems o b first id ns) = .ok st' := by
        split at h
        · obtain ⟨mid, hmid, h⟩ := bind_eq_ok h
          exact ⟨mid, (fits_closeMissing hmid hf).1, (fits_closeMissing hmid hf).2, h⟩
        · rename_i hnot
          refine ⟨st, hf, Bool.eq_false_iff.2 fun hpend => ?_, h⟩
          obtain ⟨hgiven, hleads⟩ := slot_of_no_condition (o := o) ns hk
          have hfree := hfilled hpend hgiven
          rw [hleads, decide_eq_false_iff_not] at hfree
          have hfirst : first = true := by
            cases first with
            | true => rfl
            | false =>
              rw [hp rfl] at hpend
              cases hpend
          exact hnot ⟨hfirst, hfree⟩
      obtain ⟨mid, hmid, hpmid, h⟩ := hactivity
      obtain ⟨next, hnext, h⟩ := bind_eq_ok h
      obtain ⟨hnext', hpnext⟩ := runNode_fits o b d n mid next hn.cons.1 hmid hpmid hnext
      exact runItems_fits o b d first id ns next st' hn.cons.2 hnext' (fun _ => hpnext)
        (fun hpend => by rw [hpnext] at hpend; cases hpend) h

end

/-- **The brackets of an expression.** An expression over a dotted receiver closes what it opens, when
all the activities of its definition can be read. -/
theorem turns_expression {o : Options} {doc : Definition.Document} {e : Expression}
    (h : expression o doc = .ok e) (hreceiver : IsDotted o.receiver)
    (hdoc : ∀ root, doc.root? = some root → AllSpelled o doc.bindings (reached 0 root)) {r : Bytes}
    (hr : Stops r) : Turns [] [] e.text r := by
  unfold expression at h
  split at h
  · cases h
  · rename_i root hroot
    split at h
    · cases h
    · rename_i hkind
      obtain ⟨st, hst, h⟩ := bind_eq_ok h
      cases h
      have hstart : Fits { depth := o.baseDepth, out := o.receiver } := fun r hr =>
        Source.turns_dotted [] hreceiver (hr rfl)
      have hchildren : AllSpelled o doc.bindings (reachedAll 0 root.children) := by
        have hroot' := hdoc root hroot
        obtain ⟨kind, tag, space, attrs, children⟩ := root
        obtain rfl : kind = .sequence := by simpa [Node.kind] using hkind
        exact hroot'.children (by simp only [reached, Node.children])
      obtain ⟨hfits, hp⟩ := runNodes_fits o doc.bindings 0 root.children _ st hchildren hstart rfl hst
      have hout := hfits r fun _ => hr
      rwa [hp] at hout

end Flowsmith.Flow
