import Flowsmith.Proofs.Files.Beside

/-!
# Calls on linked nodes

Writing, removing and making directories change the table and the directories of linked nodes one after
the other, and may fail between. Whatever is called, and however its paths are written, the table and the
directories still lead to the same nodes, a call that fails has changed nothing, and a call that succeeds
has changed one path.

* `Call` : what changes a store; `after` : the linked nodes after calls, `tableAfter` : the store with a
  table alone after the same calls;
* `makeDirs_error`, `write_error`, `call_error` : what fails changes nothing;
* `Mirrors.after` : calls keep the two stores alike;
* `consistent_after` : the tree after any calls, and what one more call does to it.
-/

namespace Flowsmith.Linked

open Flowsmith.Path
open Memory (root normalize normalize_eq normalize_normalize normalize_directory key_nil)

variable {l l' : Linked} {m : Memory}

/-! ## What fails changes nothing -/

/-- Below a directory without entries nothing is in the way. -/
theorem makeDirsFrom_fresh (l : Linked) (dir : Nat) (path : Bytes) (names : List Bytes)
    (hentry : l.entryOf? dir = some .directory) (hempty : l.children dir = ∅) :
    ∃ l', ran (makeDirsFrom dir path names) l = (.ok (), l') := by
  induction names generalizing l dir path with
  | nil => exact ⟨l, rfl⟩
  | cons name names ih =>
    rw [makeDirsFrom, ran_get_bind, hempty, AList.lookup_empty]
    refine ih (l.link dir (join path name) name (.directory ∅)) _ _ ?_ ?_
    · rw [entryOf?_link, if_pos rfl]
      rfl
    · rw [children_link hentry, if_pos rfl]
      rfl

/-- Something in the way is met before the first directory is made. -/
theorem makeDirsFrom_error {names : List Bytes} {dir : Nat} {path : Bytes} {e : Fault}
    (hentry : l.entryOf? dir = some .directory)
    (h : ran (makeDirsFrom dir path names) l = (.error e, l')) : l' = l := by
  induction names generalizing dir path with
  | nil => cases h
  | cons name names ih =>
    rw [makeDirsFrom, ran_get_bind] at h
    cases hchild : (l.children dir).lookup name with
    | none =>
      rw [hchild] at h
      obtain ⟨made, hmade⟩ := makeDirsFrom_fresh (l.link dir (join path name) name (.directory ∅))
        l.nodes.length (join path name) names (by rw [entryOf?_link, if_pos rfl]; rfl)
        (by rw [children_link hentry, if_pos rfl]; rfl)
      cases hmade.symm.trans h
    | some i =>
      rw [hchild] at h
      simp only at h
      split at h
      · rename_i hi
        exact ih hi h
      · cases h
        rfl

theorem makeDirs_error (h : Tree l) {p : Bytes} {e : Fault}
    (hran : ran (makeDirs p) l = (.error e, l')) : l' = l := by
  rw [makeDirs, ran_get_bind] at hran
  cases hlookup : l.lookup (normalize p) with
  | some entry =>
    rw [hlookup] at hran
    cases entry <;> cases hran
    rfl
  | none =>
    obtain ⟨top, htop, hentry⟩ := h.top
    rw [hlookup, htop] at hran
    exact makeDirsFrom_error hentry hran

theorem makeDirsFrom_above {ns names : List Bytes} {dir : Nat} {r : Except Fault Unit}
    (hns : ∀ k ∈ ns, IsEntry k) (hnames : ∀ k ∈ names, IsEntry k)
    (hran : ran (makeDirsFrom dir (key ns) names) l = (r, l')) {ms : List Bytes}
    (hms : ∀ k ∈ ms, IsEntry k) (hlength : (ns ++ names).length < ms.length) :
    l'.table.lookup (key ms) = l.table.lookup (key ms) := by
  induction names generalizing ns l dir with
  | nil =>
    cases hran
    rfl
  | cons n names ih =>
    have hn := hnames n List.mem_cons_self
    have hrest : ∀ k ∈ names, IsEntry k := fun k hk => hnames k (List.mem_cons_of_mem _ hk)
    obtain ⟨hsnoc, -, hjoin⟩ := key_entry hns hn
    have hmore : (ns ++ [n] ++ names).length < ms.length := by simpa using hlength
    rw [makeDirsFrom, ran_get_bind, hjoin] at hran
    cases hchild : (l.children dir).lookup n with
    | none =>
      rw [hchild] at hran
      rw [ih hsnoc hrest hran hmore, table_link, if_neg]
      intro heq
      rw [key_inj hms hsnoc heq] at hmore
      simp at hmore
    | some i =>
      rw [hchild] at hran
      simp only at hran
      split at hran
      · exact ih hsnoc hrest hran hmore
      · cases hran
        rfl

theorem makeDirs_above (h : Tree l) {p q : Bytes} {r : Except Fault Unit}
    (hran : ran (makeDirs p) l = (r, l')) (hlength : (fromRoot p).length < (fromRoot q).length) :
    l'.table.lookup (normalize q) = l.table.lookup (normalize q) := by
  rw [makeDirs, ran_get_bind] at hran
  cases hlookup : l.lookup (normalize p) with
  | some entry =>
    rw [hlookup] at hran
    cases entry <;> cases hran <;> rfl
  | none =>
    obtain ⟨top, htop, -⟩ := h.top
    rw [hlookup, htop, Mirrors.names_normalize, ← key_nil] at hran
    rw [normalize_eq]
    exact makeDirsFrom_above (by simp) (isEntry_fromRoot p) hran (isEntry_fromRoot q)
      (by simpa using hlength)

theorem makeDirs_there {p : Bytes} (h : l.lookup (normalize p) = some .directory) :
    ran (makeDirs p) l = (.ok (), l) := by
  rw [makeDirs, ran_get_bind, h]
  rfl

theorem Mirrors.made (h : Mirrors l m) {p : Bytes} (hran : ran (Linked.makeDirs p) l = (.ok (), l')) :
    ∃ m', Mirrors l' m' ∧ l'.lookup (normalize p) = some .directory := by
  obtain ⟨r, m', hm, -, -, hlast⟩ := Memory.ran_makeDirs h.sound p
  obtain ⟨hresult, hstate⟩ := h.makeDirs p
  rw [hran, hm] at hresult hstate
  have hroot := hstate.root_ne_none
  refine ⟨m', hstate, ?_⟩
  rw [← hstate.lookup]
  exact hlast hresult.symm fun hnone => by simp [hnone] at hroot

/-- What stands below a directory was not made with it, and so the directory was there. -/
theorem Mirrors.unmade (h : Mirrors l m) {p : Bytes} {e : MemoryEntry}
    (hran : ran (Linked.makeDirs (directory (normalize p))) l = (.ok (), l'))
    (hthere : l'.lookup (normalize p) = some e) : l' = l := by
  suffices hdir : l.lookup (directory (normalize p)) = some .directory by
    rw [← normalize_directory] at hdir
    exact (Prod.mk.inj (hran.symm.trans (makeDirs_there hdir))).2
  by_cases hr : normalize p = root
  · obtain ⟨top, htop, hentry⟩ := h.tree.top
    rw [hr, show directory root = root by decide, lookup_of_table htop, hentry]
  have hentry := isEntry_fromRoot p
  obtain hnil | ⟨ns, n, hsnoc⟩ := List.eq_nil_or_concat (fromRoot p)
  · rw [normalize_eq, hnil] at hr
    exact absurd rfl hr
  rw [List.concat_eq_append] at hsnoc
  rw [hsnoc] at hentry
  have hns : ∀ k ∈ ns, IsEntry k := fun k hk => hentry k (List.mem_append_left _ hk)
  have hold : l'.table.lookup (normalize p) = l.table.lookup (normalize p) := by
    refine makeDirs_above h.tree hran ?_
    rw [normalize_eq, hsnoc, directory_key hns (hentry n (by simp)), fromRoot_key hns]
    simp
  cases hi : l.table.lookup (normalize p) with
  | none =>
    rw [Linked.lookup, hold, hi] at hthere
    cases hthere
  | some i =>
    obtain ⟨node, -, -, hnode, -⟩ := h.tree.exists_node hi
    rw [← h.lookup]
    exact h.sound.parent _ node.body.entry (by rw [h.lookup, lookup_of_table hi, hnode]) hr

/-- A directory stands in the way of a file only where the directories above it were there. -/
theorem write_error (h : Mirrors l m) {p c : Bytes} {e : Fault}
    (hran : ran (write p c) l = (.error e, l')) : l' = l := by
  rw [write, ran_get_bind] at hran
  cases hrefusal : l.refusal? (normalize p) with
  | some message =>
    rw [hrefusal] at hran
    cases hran
    rfl
  | none =>
    rw [hrefusal] at hran
    rcases ran_bind_error_iff.1 hran with hmake | ⟨u, t, hmake, hrest⟩
    · exact makeDirs_error h.tree hmake
    obtain ⟨m', ht, hmade⟩ := h.made hmake
    rw [normalize_directory] at hmade
    rw [ran_get_bind] at hrest
    by_cases hthere : t.lookup (normalize p) = some .directory
    · obtain rfl : t = l := h.unmade hmake hthere
      simp only [hthere, if_true] at hrest
      cases hrest
      rfl
    · cases hplace : t.table.lookup (directory (normalize p)) with
      | none =>
        rw [Linked.lookup, hplace] at hmade
        cases hmade
      | some dir =>
        simp only [hthere, hplace, if_false] at hrest
        cases hrest

theorem ran_nodeAt (l : Linked) (p : Bytes) : (ran (nodeAt p) l).2 = l := by
  simp only [nodeAt, ran_get_bind]
  split
  · rfl
  · split <;> rfl

theorem ran_read (l : Linked) (p : Bytes) : (ran (read p) l).2 = l := by
  have hkeep := ran_nodeAt l p
  rw [read, ran_bind]
  generalize ran (nodeAt p) l = out at hkeep
  obtain ⟨r, t⟩ := out
  obtain rfl : t = l := hkeep
  cases r with
  | error e => rfl
  | ok n => cases hbody : n.body <;> simp only [hbody] <;> rfl

/-- A removal fails and changes nothing, or takes one path out of the table. -/
theorem ran_remove (l : Linked) (p : Bytes) :
    (∃ e, ran (remove p) l = (.error e, l)) ∨
      ∃ dir n, ran (remove p) l = (.ok (), l.unlink dir (normalize p) n) := by
  have hkeep := ran_nodeAt l (normalize p)
  rw [remove, ran_bind]
  generalize ran (nodeAt (normalize p)) l = out at hkeep
  obtain ⟨r, t⟩ := out
  obtain rfl : t = l := hkeep
  cases r with
  | error e => exact .inl ⟨e, rfl⟩
  | ok n =>
    cases hempty : n.body.children.entries.isEmpty with
    | false =>
      simp only [hempty, Bool.not_false, if_true]
      exact .inl ⟨_, rfl⟩
    | true =>
      simp only [hempty, Bool.not_true, Bool.false_eq_true, if_false, ran_get_bind]
      cases t.table.lookup (directory (normalize p)) with
      | none => exact .inl ⟨_, rfl⟩
      | some dir => exact .inr ⟨dir, n.name, rfl⟩

/-! ## Calls -/

/-- What changes a store. -/
inductive Call where
  | write (path content : Bytes)
  | makeDirs (path : Bytes)
  | remove (path : Bytes)
  /-- Every access to a path is made to fail with a message. -/
  | refuse (path message : Bytes)
  deriving DecidableEq, Repr

namespace Call

def onNodes : Call → FileM Linked Unit
  | write p content => Linked.write p content
  | makeDirs p => Linked.makeDirs p
  | remove p => Linked.remove p
  | refuse p message => modify (·.refuse p message)

def onTable : Call → FileM Memory Unit
  | write p content => Memory.write p content
  | makeDirs p => Memory.makeDirs p
  | remove p => Memory.remove p
  | refuse p message => modify (·.refuse p message)

def SparesRoot (c : Call) : Prop := ∀ p, c = remove p → normalize p ≠ root

end Call

/-- The linked nodes after calls, whether they succeeded or failed. -/
def after (cs : List Call) : Linked := cs.foldl (fun l c => (ran c.onNodes l).2) empty

def tableAfter (cs : List Call) : Memory := cs.foldl (fun m c => (ran c.onTable m).2) Memory.empty

theorem Mirrors.call (h : Mirrors l m) {c : Call} (hc : c.SparesRoot) :
    Meets Mirrors c.onNodes c.onTable l m := by
  cases c with
  | write p content => exact h.write p content
  | makeDirs p => exact h.makeDirs p
  | remove p => exact h.remove (hc p rfl)
  | refuse p message => exact .of_ends rfl rfl (h.refuse p message)

theorem Mirrors.after {cs : List Call} (hcs : ∀ c ∈ cs, c.SparesRoot) :
    Mirrors (after cs) (tableAfter cs) := by
  induction cs using List.reverseRecOn with
  | nil => exact Mirrors.empty
  | append_singleton cs c ih =>
    rw [Linked.after, tableAfter, List.foldl_append, List.foldl_append]
    exact ((ih fun d hd => hcs d (List.mem_append_left _ hd)).call (hcs c (by simp))).state

theorem call_error (h : Mirrors l m) {c : Call} {e : Fault}
    (hran : ran c.onNodes l = (.error e, l')) : l' = l := by
  cases c with
  | write p content => exact write_error h hran
  | makeDirs p => exact makeDirs_error h.tree hran
  | remove p =>
    rcases ran_remove l p with ⟨e', he⟩ | ⟨dir, n, hok⟩
    · exact (Prod.mk.inj (hran.symm.trans he)).2
    · cases hran.symm.trans hok
  | refuse p message => cases hran

theorem Mirrors.fileAt?_eq (h : Mirrors l m) (p : Bytes) : m.fileAt? p = l.fileAt? p := by
  rw [Memory.fileAt?, h.lookup p]
  rfl

/-- What was written is read under every spelling of its path, and other files are as they were. -/
theorem write_ends (h : Mirrors l m) {p c : Bytes} (hran : ran (write p c) l = (.ok (), l')) :
    (∀ q, normalize q = normalize p → ran (read q) l' = (.ok c, l')) ∧
      ∀ q, q ≠ normalize p → l'.fileAt? q = l.fileAt? q := by
  obtain ⟨hresult, h'⟩ := h.write p c
  rw [hran] at hresult h'
  have hends : Ends (Memory.write p c) m () (ran (Memory.write p c) m).2 := Prod.ext hresult.symm rfl
  obtain ⟨-, hrefused, hfiles⟩ := Memory.write_ends h.sound hends
  have hrefusal : l.refusal? (normalize p) = none := by
    rw [write, ran_get_bind] at hran
    cases hrefusal : l.refusal? (normalize p) with
    | none => rfl
    | some message =>
      rw [hrefusal] at hran
      cases hran
  refine ⟨fun q hq => ?_, fun q hq => ?_⟩
  · have hread : Ends (Memory.read q) _ c _ := Memory.read_iff.2
      ⟨rfl, by rw [hfiles, if_pos hq], by
        rw [hq, Memory.refusal?, hrefused, ← Memory.refusal?, h.refusal?_eq, hrefusal]⟩
    obtain ⟨t, ht, -⟩ := (h'.read q).ends hread
    rw [show ran (read q) l' = _ from ht, ← ran_read l' q, show ran (read q) l' = _ from ht]
  · rw [← h.fileAt?_eq, ← h'.fileAt?_eq, hfiles, if_neg hq]

theorem remove_ends {p : Bytes} (hran : ran (remove p) l = (.ok (), l')) :
    (∀ q, l'.table.lookup q = if q = normalize p then none else l.table.lookup q) ∧
      ∀ q, l'.lookup q = if q = normalize p then none else l.lookup q := by
  rcases ran_remove l p with ⟨e, he⟩ | ⟨dir, n, hok⟩
  · cases hran.symm.trans he
  · obtain ⟨-, rfl⟩ := Prod.mk.inj (hran.symm.trans hok)
    exact ⟨table_unlink l dir _ n, lookup_unlink l dir _ n⟩

/-- **Table and directories stay one tree, and every call changes one thing or nothing.** After any calls
that spare the root, every path of the table but the root is an entry of the directory above it, every
entry of a directory is in the table, and a store with a table alone that had the same calls holds the same.
One call more then changes nothing when it fails. A file that it writes is read under every spelling of
its path, and no other file changes. A path that it removes is gone, and no other one is. -/
theorem consistent_after (cs : List Call) (c : Call) (hroot : ∀ d ∈ cs ++ [c], d.SparesRoot) :
    let l := after cs
    let m := tableAfter cs
    (∀ q i, l.table.lookup q = some i → q ≠ root → ∃ d, l.table.lookup (directory q) = some d ∧
      l.entryOf? d = some .directory ∧ (l.children d).lookup (base q) = some i) ∧
    (∀ q i n j, l.table.lookup q = some i → (l.children i).lookup n = some j →
      l.table.lookup (join q n) = some j) ∧
    (∀ q, m.lookup q = l.lookup q) ∧
    (∀ q, (ran (read q) l).1 = (ran (Memory.read q) m).1 ∧
      (ran (stat q) l).1 = (ran (Memory.stat q) m).1 ∧
      (ran (list q) l).1 = (ran (Memory.list q) m).1) ∧
    (ran c.onNodes l).1 = (ran c.onTable m).1 ∧
    (∀ e l', ran c.onNodes l = (.error e, l') → l' = l) ∧
    (∀ p content l', c = .write p content → ran c.onNodes l = (.ok (), l') →
      (∀ q, normalize q = normalize p → ran (read q) l' = (.ok content, l')) ∧
      ∀ q, q ≠ normalize p → l'.fileAt? q = l.fileAt? q) ∧
    (∀ p l', c = .remove p → ran c.onNodes l = (.ok (), l') →
      (∀ q, l'.table.lookup q = if q = normalize p then none else l.table.lookup q) ∧
      ∀ q, l'.lookup q = if q = normalize p then none else l.lookup q) := by
  have h : Mirrors (after cs) (tableAfter cs) :=
    .after fun d hd => hroot d (List.mem_append_left _ hd)
  refine ⟨fun q i hq hr => ?_, fun q i n j hq hn => (h.tree.child q i n j hq hn).2, h.lookup,
    fun q => ⟨(h.read q).result, (h.stat q).result, (h.list q).result⟩,
    (h.call (hroot c (by simp))).result, fun e l' => call_error h, ?_, ?_⟩
  · obtain ⟨d, hd, hchild⟩ := h.tree.parent q i hq hr
    refine ⟨d, hd, ?_, hchild⟩
    by_contra hentry
    rw [h.tree.leaf (by rwa [lookup_of_table hd]) hd] at hchild
    cases hchild
  · rintro p content l' rfl hran
    exact write_ends h hran
  · rintro p l' rfl hran
    exact remove_ends hran

/-- Files under several spellings, a refusal, and removals that fail and succeed. -/
def mixedCalls : List Call :=
  [.write "a/../b//x" "one", .refuse "/c" "no", .write "c" "two", .makeDirs "/d/e", .remove "d",
    .remove "/d/./e", .write "b/y" "three", .write "b/x/z" "four"]

theorem consistent_after_mixedCalls :
    (∀ d ∈ mixedCalls ++ [.write "./b/x" "five"], d.SparesRoot) ∧
    (after mixedCalls).fileAt? "/b/x" = some ("one" : Bytes) ∧
    ∃ l', ran (Call.write "./b/x" "five").onNodes (after mixedCalls) = (.ok (), l') ∧
      ran (read "/b/../b/x") l' = (.ok "five", l') ∧ l'.fileAt? "/b/y" = some ("three" : Bytes) := by
  have hroot : ∀ d ∈ mixedCalls ++ [.write "./b/x" "five"], d.SparesRoot := by
    rintro d hd p rfl
    simp only [mixedCalls, List.cons_append, List.nil_append, List.mem_cons, Call.remove.injEq,
      reduceCtorEq, List.not_mem_nil, or_false, false_or] at hd
    rcases hd with rfl | rfl <;> decide
  obtain ⟨-, -, -, -, -, -, hwrite, -⟩ := consistent_after mixedCalls (.write "./b/x" "five") hroot
  refine ⟨hroot, by decide, _, rfl, ?_, ?_⟩
  · exact (hwrite _ _ _ rfl rfl).1 "/b/../b/x" (by decide)
  · exact ((hwrite _ _ _ rfl rfl).2 "/b/y" (by decide)).trans (by decide)

end Flowsmith.Linked
