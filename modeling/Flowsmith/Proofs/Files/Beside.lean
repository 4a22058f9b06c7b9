import Flowsmith.Proofs.Files.Linked
import Flowsmith.Proofs.Files.Table

/-!
# Linked nodes beside a table

A store of linked nodes and a store with a table alone give the same results and the same faults, and
hold the same afterwards. So the second copy that every directory keeps of its part of the table never
shows.

* `Mirrors` : the linked nodes hold what a store with a table alone holds;
* `Mirrors.write`, `Mirrors.remove`, `Mirrors.makeDirs`, `Mirrors.read`, `Mirrors.stat`,
  `Mirrors.list` : then every operation gives the same on both.
-/

namespace Flowsmith

open Flowsmith.Path

theorem Meets.of_ran {τ υ α : Type} {R : τ → υ → Prop} {x x' : ExceptT Fault (StateM τ) α}
    {y y' : ExceptT Fault (StateM υ) α} {s s' : τ} {t t' : υ} (hx : ran x s = ran x' s')
    (hy : ran y t = ran y' t') (h : Meets R x' y' s' t') : Meets R x y s t :=
  ⟨by rw [hx, hy, h.result], by rw [hx, hy]; exact h.state⟩

namespace Linked

open Memory (root normalize normalize_eq normalize_key normalize_normalize normalize_directory key_nil
  key_eq_root_iff)

variable {l : Linked}


theorem Tree.exists_node (h : Tree l) {p : Bytes} {i : Nat} (hp : l.table.lookup p = some i) :
    ∃ n, l.nodes[i]? = some n ∧ n.name = base p ∧ l.entryOf? i = some n.body.entry ∧
      l.children i = n.body.children := by
  obtain ⟨n, hn, hname⟩ := Option.map_eq_some_iff.1 (h.named p i hp)
  refine ⟨n, hn, hname, ?_, ?_⟩
  · rw [entryOf?, hn]
    rfl
  · rw [children, hn]
    rfl

/-- Where no directory stands nothing lies below. -/
theorem Tree.leaf (h : Tree l) {p : Bytes} {i : Nat} (hfree : l.lookup p ≠ some .directory)
    (hi : l.table.lookup p = some i) : l.children i = ∅ := by
  obtain ⟨node, -, -, he, hchildren⟩ := h.exists_node hi
  rw [lookup_of_table hi, he] at hfree
  rw [hchildren, NodeBody.children_eq_empty fun hd => hfree (by rw [hd])]

theorem Tree.lookup_link (h : Tree l) (dir : Nat) (path name : Bytes) (b : NodeBody) (q : Bytes) :
    (l.link dir path name b).lookup q = if q = path then some b.entry else l.lookup q := by
  cases hq : (l.link dir path name b).table.lookup q with
  | none =>
    rw [table_link] at hq
    split at hq
    · cases hq
    · rename_i hne
      rw [lookup, lookup, table_link, if_neg hne, if_neg hne, hq]
      rfl
  | some i =>
    rw [lookup_of_table hq, entryOf?_link]
    rcases h.table_cases hq with ⟨rfl, rfl⟩ | ⟨hne, hold, hi⟩
    · rw [if_pos rfl, if_pos rfl]
    · rw [if_neg hi, if_neg hne, lookup_of_table hold]

theorem lookup_unlink (l : Linked) (dir : Nat) (path name q : Bytes) :
    (l.unlink dir path name).lookup q = if q = path then none else l.lookup q := by
  rw [lookup, lookup, table_unlink]
  split
  · rfl
  · cases l.table.lookup q with
    | none => rfl
    | some i => exact entryOf?_unlink l dir i path name

/-- The linked nodes hold what a store with a table alone holds. -/
structure Mirrors (l : Linked) (m : Memory) : Prop where
  tree : Tree l
  sound : Memory.Sound m
  lookup : ∀ p, m.lookup p = l.lookup p
  refused : m.refused = l.refused

namespace Mirrors

variable {m : Memory} {ns : List Bytes} {n : Bytes} {dir : Nat}

theorem empty : Mirrors Linked.empty Memory.empty where
  tree := Tree.empty
  sound := Memory.Sound.empty
  lookup p := by
    by_cases hp : p = root
    · subst hp
      rfl
    · have htable : Linked.empty.table.lookup p = none := by
        rw [Linked.empty, ← AList.insert_empty, AList.lookup_insert_ne hp, AList.lookup_empty]
      rw [Linked.lookup, htable, Memory.lookup, Memory.empty,
        List.find?_cons_of_neg (by simpa using Ne.symm hp)]
      rfl
  refused := rfl

theorem refuse (h : Mirrors l m) (p message : Bytes) :
    Mirrors (l.refuse p message) (m.refuse p message) where
  tree := ⟨h.tree.top, h.tree.clean, h.tree.single, h.tree.named, h.tree.parent, h.tree.child⟩
  sound := h.sound.congr rfl
  lookup := h.lookup
  refused := by rw [Linked.refuse, Memory.refuse, h.refused]

theorem refusal?_eq (h : Mirrors l m) (p : Bytes) : m.refusal? p = l.refusal? p := by
  rw [Memory.refusal?, h.refused, Linked.refusal?]

theorem root_ne_none (h : Mirrors l m) : (m.lookup root).isNone = false := by
  obtain ⟨i, hi, htop⟩ := h.tree.top
  rw [h.lookup, lookup_of_table hi, htop]
  rfl

theorem link (h : Mirrors l m) (s : Slot l ns n dir) {b : NodeBody} (hb : b.children = ∅)
    (hfree : l.lookup (key (ns ++ [n])) ≠ some .directory) :
    Mirrors (l.link dir (key (ns ++ [n])) n b) (m.put (key (ns ++ [n])) b.entry) where
  tree := h.tree.link s hb
  sound := by
    refine h.sound.put (normalize_key s.snoc) s.ne_root ?_ fun hdir => ?_
    · rw [directory_key s.names s.name, h.lookup, lookup_of_table s.place, s.entry]
    · rw [h.lookup] at hdir
      exact absurd hdir hfree
  lookup p := by rw [Memory.lookup_put, h.tree.lookup_link, h.lookup]
  refused := h.refused

theorem makeDirsFrom (h : Mirrors l m) {names : List Bytes} (hns : ∀ k ∈ ns, IsEntry k)
    (hnames : ∀ k ∈ names, IsEntry k) (hdir : l.table.lookup (key ns) = some dir)
    (hentry : l.entryOf? dir = some .directory) :
    Meets Mirrors (Linked.makeDirsFrom dir (key ns) names) (Memory.makeDirsFrom (key ns) names) l m := by
  induction names generalizing ns l m dir with
  | nil => exact .of_ends rfl rfl h
  | cons n names ih =>
    have hn := hnames n List.mem_cons_self
    have hrest : ∀ k ∈ names, IsEntry k := fun k hk => hnames k (List.mem_cons_of_mem _ hk)
    obtain ⟨hsnoc, -, hjoin⟩ := key_entry hns hn
    have hchild := h.tree.child_eq hns hn hdir
    have hlookup := h.lookup (key (ns ++ [n]))
    rw [Linked.makeDirsFrom, Memory.makeDirsFrom]
    refine .get_bind ?_
    simp only [h.root_ne_none, Bool.false_eq_true, if_false, hjoin, hchild]
    cases hpath : l.table.lookup (key (ns ++ [n])) with
    | none =>
      have hnone : l.lookup (key (ns ++ [n])) = none := by
        rw [Linked.lookup, hpath]
        rfl
      have hfree : l.lookup (key (ns ++ [n])) ≠ some .directory := by
        rw [hnone]
        rintro ⟨⟩
      have hlinked := h.link (b := .directory ∅)
        ⟨hns, hn, hdir, hentry, fun _ => h.tree.leaf hfree⟩ rfl hfree
      have hmade := ih hlinked hsnoc hrest (by rw [table_link, if_pos rfl])
        (by rw [entryOf?_link, if_pos rfl]; rfl)
      refine .of_ran ?_ ?_ hmade
      · rfl
      · rw [ran_get_bind, hlookup, hnone]
        rfl
    | some i =>
      obtain ⟨node, -, -, he, -⟩ := h.tree.exists_node hpath
      rw [lookup_of_table hpath, he] at hlookup
      cases hbody : node.body with
      | directory entries =>
        rw [hbody, NodeBody.entry] at hlookup he
        refine .of_ran ?_ ?_ (ih h hsnoc hrest hpath he)
        · simp only [he, if_true]
        · rw [ran_get_bind, hlookup]
      | file content =>
        rw [hbody, NodeBody.entry] at hlookup he
        refine ⟨?_, ?_⟩ <;> simp [he, hlookup, h]

theorem names_normalize (p : Bytes) :
    (Bytes.splitOn slash (normalize p)).filter (!·.isEmpty) = fromRoot p := by
  have hentry := isEntry_fromRoot p
  rw [normalize_eq, key, Bytes.splitOn, if_pos rfl]
  by_cases hnil : fromRoot p = []
  · rw [hnil]
    rfl
  · rw [Bytes.splitOn_joinWith hnil fun n hn => (hentry n hn).no_slash,
      List.filter_cons_of_neg (by simp), List.filter_eq_self]
    intro n hn
    simp [(hentry n hn).ne_nil]

theorem makeDirs (h : Mirrors l m) (p : Bytes) :
    Meets Mirrors (Linked.makeDirs p) (Memory.makeDirs p) l m := by
  rw [Linked.makeDirs, Memory.makeDirs]
  refine .get_bind ?_
  rw [h.lookup, names_normalize, Memory.parts_normalize]
  cases l.lookup (normalize p) with
  | some e =>
    cases e with
    | directory => exact .of_ends rfl rfl h
    | file c => exact (Agree.throw _).meets h
  | none =>
    obtain ⟨top, htop, hentry⟩ := h.tree.top
    rw [htop]
    rw [← key_nil] at htop ⊢
    exact h.makeDirsFrom (by simp) (isEntry_fromRoot p) htop hentry

/-! ## Looking at nodes -/

/-- What is looked for is refused or missing in both, or found in both. -/
theorem nodeAt_bind (h : Mirrors l m) (p : Bytes) {α : Type} {f : FileNode → FileM Linked α}
    {g : MemoryEntry → FileM Memory α}
    (hfg : ∀ i node, l.table.lookup (normalize p) = some i → l.nodes[i]? = some node →
      Ends (Memory.entryAt p) m node.body.entry m → Meets Mirrors (f node) (g node.body.entry) l m) :
    Meets Mirrors (Linked.nodeAt p >>= f) (Memory.entryAt p >>= g) l m := by
  have hstop : ∀ e, ran (Linked.nodeAt p) l = (.error e, l) →
      ran (Memory.entryAt p) m = (.error e, m) →
      Meets Mirrors (Linked.nodeAt p >>= f) (Memory.entryAt p >>= g) l m := by
    intro e hl hm
    refine ⟨?_, ?_⟩ <;> simp only [ran_bind, hl, hm, h]
  have hgo : ∀ i node, l.table.lookup (normalize p) = some i → l.nodes[i]? = some node →
      ran (Linked.nodeAt p) l = (.ok node, l) →
      ran (Memory.entryAt p) m = (.ok node.body.entry, m) →
      Meets Mirrors (Linked.nodeAt p >>= f) (Memory.entryAt p >>= g) l m := by
    intro i node hi hn hl hm
    refine .of_ran ?_ ?_ (hfg i node hi hn hm)
    · rw [ran_bind, hl]
    · rw [ran_bind, hm]
  simp only [Linked.nodeAt, Memory.entryAt, ran_get_bind, h.refusal?_eq, h.lookup] at hstop hgo
  cases hrefusal : l.refusal? (normalize p) with
  | some message =>
    rw [hrefusal] at hstop
    exact hstop _ rfl rfl
  | none =>
    rw [hrefusal] at hstop hgo
    cases hi : l.table.lookup (normalize p) with
    | none =>
      have hnode : l.node? (normalize p) = none := by
        rw [node?, hi]
        rfl
      have hlookup : l.lookup (normalize p) = none := by
        rw [Linked.lookup, hi]
        rfl
      rw [hnode, hlookup] at hstop
      exact hstop _ rfl rfl
    | some i =>
      obtain ⟨node, hn, -, hentry, -⟩ := h.tree.exists_node hi
      have hnode : l.node? (normalize p) = some node := by
        rw [node?, hi]
        exact hn
      rw [hnode, lookup_of_table hi, hentry] at hgo
      exact hgo i node hi hn rfl rfl

theorem stat (h : Mirrors l m) (p : Bytes) :
    Meets Mirrors (Linked.stat p) (Memory.stat p) l m := by
  refine h.nodeAt_bind p fun i node hi hn _ => ?_
  obtain ⟨node', hn', hname, -⟩ := h.tree.exists_node hi
  obtain rfl := Option.some.inj (hn.symm.trans hn')
  rw [hname]
  exact .of_ends rfl rfl h

theorem counted (h : Mirrors l m) (reads writes : Nat) :
    Mirrors l { m with reads := reads, writes := writes } :=
  ⟨h.tree, h.sound.congr rfl, h.lookup, h.refused⟩

theorem read (h : Mirrors l m) (p : Bytes) :
    Meets Mirrors (Linked.read p) (Memory.read p) l m := by
  have h' := h.counted (m.reads + 1) m.writes
  refine .of_ran rfl (ran_modify_bind _ _) (h'.nodeAt_bind p fun i node _ _ _ => ?_)
  cases node.body with
  | file content => exact .of_ends rfl rfl h'
  | directory children => exact (Agree.throw _).meets h'

/-! ## Changing the tree -/

/-- Everything in the table but the root stands in a directory, by a name. -/
theorem slot_of_ne_root {p : Bytes} (hr : normalize p ≠ root)
    (hdir : l.lookup (directory (normalize p)) = some .directory)
    (hleaf : ∀ i, l.table.lookup (normalize p) = some i → l.children i = ∅) :
    ∃ ns n dir, Slot l ns n dir ∧ normalize p = key (ns ++ [n]) ∧
      l.table.lookup (directory (normalize p)) = some dir := by
  have hentry := isEntry_fromRoot p
  rw [normalize_eq] at hr hdir hleaf ⊢
  obtain hnil | ⟨ns, n, hsnoc⟩ := List.eq_nil_or_concat (fromRoot p)
  · rw [hnil] at hr
    exact absurd rfl hr
  rw [List.concat_eq_append] at hsnoc
  rw [hsnoc] at hdir hleaf hentry ⊢
  have hns : ∀ k ∈ ns, IsEntry k := fun k hk => hentry k (List.mem_append_left _ hk)
  have hn : IsEntry n := hentry n (by simp)
  rw [directory_key hns hn] at hdir ⊢
  cases hplace : l.table.lookup (key ns) with
  | none =>
    rw [Linked.lookup, hplace] at hdir
    cases hdir
  | some dir =>
    rw [lookup_of_table hplace] at hdir
    exact ⟨ns, n, dir, ⟨hns, hn, hplace, hdir, hleaf⟩, rfl, rfl⟩

theorem write (h : Mirrors l m) (p c : Bytes) :
    Meets Mirrors (Linked.write p c) (Memory.write p c) l m := by
  have hcounted := h.counted m.reads (m.writes + 1)
  refine .of_ran rfl (ran_modify_bind _ _) (.get_bind ?_)
  rw [hcounted.refusal?_eq]
  cases l.refusal? (normalize p) with
  | some message => exact (Agree.throw _).meets hcounted
  | none =>
    refine (hcounted.makeDirs (directory (normalize p))).bind fun u l' m' _ hm h' => .get_bind ?_
    obtain ⟨r, t, hran, -, -, hmade⟩ :=
      Memory.ran_makeDirs hcounted.sound (directory (normalize p))
    obtain ⟨rfl, rfl⟩ := Prod.mk.inj (hran.symm.trans hm)
    have hroot := h'.root_ne_none
    have hdir := hmade rfl fun hnone => by simp [hnone] at hroot
    rw [normalize_directory, h'.lookup] at hdir
    simp only [hroot, Bool.false_eq_true, if_false]
    by_cases hthere : l'.lookup (normalize p) = some .directory
    · refine ⟨?_, ?_⟩ <;> simp [hthere, h'.lookup, h']
    · have hr : normalize p ≠ root := by
        intro heq
        rw [heq] at hthere
        obtain ⟨top, htop, hentry⟩ := h'.tree.top
        exact hthere (by rw [lookup_of_table htop, hentry])
      obtain ⟨ns, n, dir, s, hkey, hplace⟩ := slot_of_ne_root hr hdir fun _ => h'.tree.leaf hthere
      rw [hkey] at hthere hplace ⊢
      rw [if_neg hthere, hplace, base_key _ s.name]
      have hlinked := h'.link s (b := .file c) rfl hthere
      refine .of_ends rfl ?_ hlinked
      rw [Ends.get_bind_iff, h'.lookup]
      split
      · rename_i hd
        exact absurd hd hthere
      · rfl

theorem mem_entries (h : Mirrors l m) {p x : Bytes} {i j : Nat}
    (hi : l.table.lookup (normalize p) = some i) :
    (l.children i).lookup x = some j ↔
      IsEntry x ∧ l.table.lookup (key (fromRoot p ++ [x])) = some j := by
  rw [normalize_eq] at hi
  constructor
  · intro hx
    obtain ⟨hentry, -⟩ := h.tree.child _ i x j hi hx
    exact ⟨hentry, by rw [← h.tree.child_eq (isEntry_fromRoot p) hentry hi, hx]⟩
  · rintro ⟨hentry, hx⟩
    rw [h.tree.child_eq (isEntry_fromRoot p) hentry hi, hx]

theorem mem_children (h : Mirrors l m) {p q : Bytes} {e : MemoryEntry} :
    (q, e) ∈ m.children (normalize p) ↔
      ∃ x, IsEntry x ∧ q = key (fromRoot p ++ [x]) ∧ l.lookup q = some e := by
  have hdir := isEntry_fromRoot p
  rw [Memory.children, List.mem_filter, normalize_eq]
  simp only [bne_iff_ne, Bool.and_eq_true, beq_iff_eq]
  constructor
  · rintro ⟨hmem, hr, hq⟩
    have hlookup := Memory.lookup_of_mem h.sound.unique hmem
    obtain ⟨ns, x, hns, hx, rfl⟩ := h.sound.eq_key_snoc hlookup hr
    rw [directory_key hns hx] at hq
    obtain rfl := key_inj hns hdir hq
    exact ⟨x, hx, rfl, by rw [← h.lookup, hlookup]⟩
  · rintro ⟨x, hx, rfl, hlookup⟩
    rw [← h.lookup] at hlookup
    exact ⟨Memory.mem_of_lookup hlookup, (key_entry hdir hx).2.1, directory_key hdir hx⟩

theorem isEmpty_eq (h : Mirrors l m) {p : Bytes} {i : Nat} {node : FileNode}
    (hi : l.table.lookup (normalize p) = some i) (hn : l.nodes[i]? = some node) :
    (node.body.entry.isDirectory && !(m.children (normalize p)).isEmpty) =
      !node.body.children.entries.isEmpty := by
  obtain ⟨node', hn', -, he, hchildren⟩ := h.tree.exists_node hi
  obtain rfl := Option.some.inj (hn.symm.trans hn')
  cases hbody : node.body with
  | file content => rfl
  | directory entries =>
    rw [NodeBody.entry, MemoryEntry.isDirectory, Bool.true_and, NodeBody.children, Bool.not_inj_iff,
      Bool.eq_iff_iff, List.isEmpty_iff, List.isEmpty_iff, List.eq_nil_iff_forall_not_mem,
      List.eq_nil_iff_forall_not_mem]
    rw [hbody, NodeBody.children] at hchildren
    constructor
    · rintro hnone ⟨x, j⟩ hx
      rw [← AList.mem_lookup_iff, ← hchildren, Option.mem_def, h.mem_entries hi] at hx
      obtain ⟨child, -, -, hentry, -⟩ := h.tree.exists_node hx.2
      exact hnone (key (fromRoot p ++ [x]), child.body.entry)
        (h.mem_children.2 ⟨x, hx.1, rfl, by rw [lookup_of_table hx.2, hentry]⟩)
    · rintro hnone ⟨q, e⟩ hq
      obtain ⟨x, hx, rfl, hlookup⟩ := h.mem_children.1 hq
      cases hj : l.table.lookup (key (fromRoot p ++ [x])) with
      | none =>
        rw [Linked.lookup, hj] at hlookup
        cases hlookup
      | some j =>
        refine hnone ⟨x, j⟩ ?_
        rw [← AList.mem_lookup_iff, ← hchildren, Option.mem_def, h.mem_entries hi]
        exact ⟨hx, hj⟩

/-- A node without entries is unlinked, and taken out of the table of the other one. -/
theorem unlink (h : Mirrors l m) (s : Slot l ns n dir) :
    Mirrors (l.unlink dir (key (ns ++ [n])) n) (m.erase (key (ns ++ [n]))) where
  tree := h.tree.unlink s
  sound := by
    refine h.sound.erase fun q e hq hqr hqdir => ?_
    rw [h.lookup] at hq
    cases hi : l.table.lookup q with
    | none =>
      rw [Linked.lookup, hi] at hq
      cases hq
    | some i =>
      obtain ⟨d, hd, hchild⟩ := h.tree.parent q i hi hqr
      rw [hqdir] at hd
      rw [s.leaf d hd] at hchild
      cases hchild
  lookup p := by rw [Memory.lookup_erase, lookup_unlink, h.lookup]
  refused := h.refused

theorem remove (h : Mirrors l m) {p : Bytes} (hr : normalize p ≠ root) :
    Meets Mirrors (Linked.remove p) (Memory.remove p) l m := by
  refine h.nodeAt_bind (normalize p) fun i node hi hn _ => ?_
  rw [normalize_normalize] at hi
  have hempty := h.isEmpty_eq hi hn
  obtain ⟨node', hn', hname, he, hchildren⟩ := h.tree.exists_node hi
  obtain rfl := Option.some.inj (hn.symm.trans hn')
  cases hfull : node.body.children.entries.isEmpty with
  | false =>
    rw [hfull] at hempty
    refine .of_ran ?_ ?_ ((Agree.throw (Files.pathFault "remove" p "directory not empty")).meets h)
    · rfl
    · rw [ran_get_bind, hempty]
      rfl
  | true =>
    rw [hfull] at hempty
    have hleaf : l.children i = ∅ := by
      rw [hchildren]
      exact AList.ext (List.isEmpty_iff.1 hfull)
    have hdir : l.lookup (directory (normalize p)) = some .directory := by
      have hparent := h.sound.parent (normalize p) _ (by rw [h.lookup, lookup_of_table hi, he]) hr
      rw [← h.lookup, hparent]
    obtain ⟨ns, n, dir, s, hkey, hplace⟩ := slot_of_ne_root hr hdir fun k hk => by
      obtain rfl := Option.some.inj (hi.symm.trans hk)
      exact hleaf
    rw [hkey] at hi hname hempty hplace ⊢
    rw [base_key _ s.name] at hname
    refine .of_ends (a := ()) ?_ ?_ (h.unlink s)
    · simp only [Bool.not_true, Bool.false_eq_true, if_false, Ends.get_bind_iff, hplace, hname]
      rfl
    · simp only [Ends.get_bind_iff, hempty, Bool.not_true, Bool.false_eq_true, if_false]
      rfl

/-! ## Listing -/

theorem mem_listed (h : Mirrors l m) {p : Bytes} {i : Nat} (hi : l.table.lookup (normalize p) = some i)
    (d : DirEntry) :
    d ∈ (l.children i).entries.filterMap (fun child =>
      l.nodes[child.2]?.map fun n => (⟨n.name, n.body.entry.isDirectory⟩ : DirEntry)) ↔
    IsEntry d.name ∧
      ∃ e, m.lookup (key (fromRoot p ++ [d.name])) = some e ∧ e.isDirectory = d.isDirectory := by
  rw [List.mem_filterMap]
  constructor
  · rintro ⟨⟨x, j⟩, hx, hd⟩
    rw [← AList.mem_lookup_iff, Option.mem_def, h.mem_entries hi] at hx
    obtain ⟨node, hn, hname, hentry, -⟩ := h.tree.exists_node hx.2
    rw [base_key _ hx.1] at hname
    rw [hn] at hd
    obtain rfl := Option.some.inj hd
    subst hname
    exact ⟨hx.1, node.body.entry, by rw [h.lookup, lookup_of_table hx.2, hentry], rfl⟩
  · rintro ⟨hx, e, hlookup, hdir⟩
    rw [h.lookup] at hlookup
    cases hj : l.table.lookup (key (fromRoot p ++ [d.name])) with
    | none =>
      rw [Linked.lookup, hj] at hlookup
      cases hlookup
    | some j =>
      obtain ⟨node, hn, hname, hentry, -⟩ := h.tree.exists_node hj
      rw [lookup_of_table hj, hentry] at hlookup
      rw [base_key _ hx] at hname
      refine ⟨⟨d.name, j⟩, ?_, ?_⟩
      · rw [← AList.mem_lookup_iff, Option.mem_def, h.mem_entries hi]
        exact ⟨hx, hj⟩
      · rw [hn, Option.map_some, hname, Option.some.inj hlookup, hdir]

theorem nodup_listed (h : Mirrors l m) {p : Bytes} {i : Nat}
    (hi : l.table.lookup (normalize p) = some i) :
    (((l.children i).entries.filterMap fun child =>
      l.nodes[child.2]?.map fun n => (⟨n.name, n.body.entry.isDirectory⟩ : DirEntry)).map
        (·.name)).Nodup := by
  rw [List.Nodup, List.pairwise_map, List.pairwise_filterMap]
  refine (List.nodupKeys_iff_pairwise.1 (l.children i).nodupKeys).imp_of_mem
    fun {a b} ha hb hab d hd d' hd' => ?_
  have hname : ∀ {child : Sigma fun _ : Bytes => Nat} {d : DirEntry}, child ∈ (l.children i).entries →
      (l.nodes[child.2]?.map fun n => (⟨n.name, n.body.entry.isDirectory⟩ : DirEntry)) = some d →
      d.name = child.1 := by
    intro child d hchild hd
    rw [← AList.mem_lookup_iff, Option.mem_def, h.mem_entries hi] at hchild
    obtain ⟨node, hn, hname, -⟩ := h.tree.exists_node hchild.2
    rw [base_key _ hchild.1] at hname
    rw [hn] at hd
    obtain rfl := Option.some.inj hd
    exact hname
  rw [hname ha hd, hname hb hd']
  exact hab

def byName (a b : DirEntry) : Bool := Bytes.le a.name b.name

theorem pairwise_byName (es : List DirEntry) : (es.mergeSort byName).Pairwise (byName · ·) :=
  List.pairwise_mergeSort
    (fun a b c (hab : Bytes.le a.name b.name) (hbc : Bytes.le b.name c.name) => Bytes.le_trans hab hbc)
    (fun a b => Bytes.le_total a.name b.name) es

theorem list (h : Mirrors l m) (p : Bytes) :
    Meets Mirrors (Linked.list p) (Memory.list p) l m := by
  refine h.nodeAt_bind p fun i node hi hn hentry => ?_
  obtain ⟨node', hn', -, -, hchildren⟩ := h.tree.exists_node hi
  obtain rfl := Option.some.inj (hn.symm.trans hn')
  cases hbody : node.body with
  | file content => exact (Agree.throw _).meets h
  | directory entries =>
    rw [hbody, NodeBody.children] at hchildren
    rw [hbody, NodeBody.entry] at hentry
    have hlist : Ends (Memory.list p) m (((m.children (normalize p)).map fun e =>
        (⟨base e.1, e.2.isDirectory⟩ : DirEntry)).mergeSort fun a b => Bytes.le a.name b.name) m := by
      rw [Memory.list, Ends.bind_iff]
      exact ⟨_, m, hentry, rfl⟩
    have hmem := (Memory.list_ends h.sound hlist).2
    refine .of_ends (a := _) ?_ (Ends.get_bind_iff.2 rfl) h
    rw [Ends.get_bind_iff, Ends.pure_iff]
    refine ⟨?_, rfl⟩
    rw [← hchildren]
    refine List.Perm.eq_of_pairwise ?_ (pairwise_byName _) (pairwise_byName _) ?_
    · -- of one name there is one entry
      intro a b ha hb hab hba
      have hname : a.name = b.name := Bytes.le_antisymm hab hba
      obtain ⟨-, e, hlookup, hdir⟩ := (h.mem_listed hi a).1 (List.mem_mergeSort.1 ha)
      obtain ⟨-, e', hlookup', hdir'⟩ := (hmem b.name b.isDirectory).1 hb
      rw [← hname, hlookup] at hlookup'
      obtain rfl := Option.some.inj hlookup'
      cases a
      cases b
      simp_all
    · refine (List.perm_ext_iff_of_nodup ?_ (Memory.nodup_list h.sound hlist).of_map).2 fun d => ?_
      · exact ((List.mergeSort_perm _ _).nodup_iff).2 (h.nodup_listed hi).of_map
      · rw [List.mem_mergeSort, h.mem_listed hi]
        exact (hmem d.name d.isDirectory).symm

end Mirrors

end Linked

end Flowsmith
