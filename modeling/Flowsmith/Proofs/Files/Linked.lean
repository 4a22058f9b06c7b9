import Flowsmith.Proofs.Files.Memory
import Mathlib.Data.List.AList

/-!
# Files in memory as linked nodes

The same files in memory, kept twice over: one table leads from each path to a node, and every directory
leads from the names in it to the nodes of its entries. Every operation has to change both. Nodes are
told apart by their numbers, so that an entry of a directory and a path of the table can be seen to lead
to the same one.

* `Linked` : nodes, their table, and the paths that fail; `Linked.link`, `Linked.unlink` : a node is
  entered in the table and its directory, or taken out of both;
* `Tree` : the table and the directories lead to the same nodes; `Tree.child_eq` : what is an entry of a
  directory is just what the table has below it;
* `Slot` : a name in a directory where a node can be linked or unlinked; `Tree.link`, `Tree.unlink` : then
  table and directories still lead to the same nodes.
-/

namespace Flowsmith

open Flowsmith.Path

abbrev Numbered := AList fun _ : Bytes => Nat

/-- A file, or a directory with its entries. -/
inductive NodeBody where
  | file (content : Bytes)
  | directory (children : Numbered)

namespace NodeBody

def entry : NodeBody → MemoryEntry
  | file content => .file content
  | directory _ => .directory

def children : NodeBody → Numbered
  | file _ => ∅
  | directory entries => entries

def onChildren (f : Numbered → Numbered) : NodeBody → NodeBody
  | file content => file content
  | directory entries => directory (f entries)

theorem entry_onChildren (f : Numbered → Numbered) (b : NodeBody) :
    (b.onChildren f).entry = b.entry := by
  cases b <;> rfl

theorem children_onChildren {b : NodeBody} (h : b.entry = .directory) (f : Numbered → Numbered) :
    (b.onChildren f).children = f b.children := by
  cases b with
  | file content => cases h
  | directory entries => rfl

theorem children_eq_empty {b : NodeBody} (h : b.entry ≠ .directory) : b.children = ∅ := by
  cases b with
  | file content => rfl
  | directory entries => exact absurd rfl h

end NodeBody

/-- A file or directory with its own name. -/
structure FileNode where
  name : Bytes
  body : NodeBody

/-- Files in memory as linked nodes; the number of a node is its place in the list. -/
structure Linked where
  nodes : List FileNode
  table : Numbered
  /-- The paths that fail, with their messages. -/
  refused : List (Bytes × Bytes) := []

namespace Linked

open Memory (root normalize normalize_eq normalize_key normalize_normalize normalize_directory
  key_eq_root_iff parts_normalize)

/-! ## Operations -/

def empty : Linked := { nodes := [⟨root, .directory ∅⟩], table := AList.singleton root 0 }

def node? (l : Linked) (path : Bytes) : Option FileNode := do l.nodes[← l.table.lookup path]?

def entryOf? (l : Linked) (i : Nat) : Option MemoryEntry := l.nodes[i]?.map (·.body.entry)

def lookup (l : Linked) (path : Bytes) : Option MemoryEntry := do l.entryOf? (← l.table.lookup path)

def fileAt? (l : Linked) (path : Bytes) : Option Bytes :=
  match l.lookup path with
  | some (.file content) => some content
  | _ => none

def children (l : Linked) (i : Nat) : Numbered := (l.nodes[i]?.map (·.body.children)).getD ∅

def name? (l : Linked) (i : Nat) : Option Bytes := l.nodes[i]?.map (·.name)

/-- The message with which a path of the table fails. -/
def refusal? (l : Linked) (path : Bytes) : Option Bytes :=
  (l.refused.find? (·.1 == path)).map (·.2)

/-- Makes every access to a path fail with a message. -/
def refuse (l : Linked) (path message : Bytes) : Linked :=
  { l with refused :=
      (normalize path, message) :: l.refused.filter (·.1 != normalize path) }

/-- Changes the entries of the directory with a number. -/
def onChildren (nodes : List FileNode) (dir : Nat) (f : Numbered → Numbered) : List FileNode :=
  nodes.modify dir fun n => { n with body := n.body.onChildren f }

/-- Makes a node and enters it in the table, and under its name in a directory. -/
def link (l : Linked) (dir : Nat) (path name : Bytes) (body : NodeBody) : Linked :=
  { l with
    nodes := onChildren l.nodes dir (·.insert name l.nodes.length) ++ [⟨name, body⟩]
    table := l.table.insert path l.nodes.length }

/-- Takes a path out of the table, and a name out of a directory. -/
def unlink (l : Linked) (dir : Nat) (path name : Bytes) : Linked :=
  { l with
    nodes := onChildren l.nodes dir (·.erase name)
    table := l.table.erase path }

def nodeAt (p : Bytes) : FileM Linked FileNode := do
  let l ← get
  let path := normalize p
  match l.refusal? path with
  | some message => throw (.plain message)
  | none =>
    match l.node? path with
    | some n => return n
    | none => throw (Files.pathFault "open" path "file does not exist")

/-- Makes the directories along a list of names below the directory with a number. -/
def makeDirsFrom (dir : Nat) (path : Bytes) : List Bytes → FileM Linked Unit
  | [] => pure ()
  | name :: names => do
    let l ← get
    let next := Path.join path name
    match (l.children dir).lookup name with
    | none =>
      set (l.link dir next name (.directory ∅))
      makeDirsFrom l.nodes.length next names
    | some i =>
      if l.entryOf? i = some .directory then makeDirsFrom i next names
      else throw (Files.pathFault "mkdir" next "not a directory")

def makeDirs (p : Bytes) : FileM Linked Unit := do
  let path := normalize p
  let l ← get
  match l.lookup path with
  | some .directory => pure ()
  | some (.file _) => throw (Files.pathFault "mkdir" path "file exists")
  | none =>
    let names := (Bytes.splitOn slash path).filter (!·.isEmpty)
    match l.table.lookup root with
    | some top => makeDirsFrom top root names
    | none => if names.isEmpty then pure () else throw (.aborted .missingRoot)

def stat (p : Bytes) : FileM Linked FileInfo := do
  let n ← nodeAt p
  return ⟨n.name, n.body.entry.size, n.body.entry.isDirectory⟩

def read (p : Bytes) : FileM Linked Bytes := do
  match (← nodeAt p).body with
  | .file content => return content
  | .directory _ => throw (Files.pathFault "read" p "is a directory")

/-- Writes a file; the directories above it are made. -/
def write (p content : Bytes) : FileM Linked Unit := do
  let path := normalize p
  match (← get).refusal? path with
  | some message => throw (.plain message)
  | none =>
    makeDirs (Path.directory path)
    let l ← get
    if l.lookup path = some .directory then throw (Files.pathFault "write" p "is a directory")
    match l.table.lookup (Path.directory path) with
    | some dir => set (l.link dir path (Path.base path) (.file content))
    | none => throw (.aborted .missingRoot)

def remove (p : Bytes) : FileM Linked Unit := do
  let path := normalize p
  let n ← nodeAt path
  if !n.body.children.entries.isEmpty then throw (Files.pathFault "remove" p "directory not empty")
  let l ← get
  match l.table.lookup (Path.directory path) with
  | some dir => set (l.unlink dir path n.name)
  | none => throw (.aborted .missingRoot)

def list (p : Bytes) : FileM Linked (List DirEntry) := do
  match (← nodeAt p).body with
  | .file _ => throw (Files.pathFault "readdir" p "not a directory")
  | .directory children =>
    let l ← get
    let entries := children.entries.filterMap fun child =>
      l.nodes[child.2]?.map fun n => (⟨n.name, n.body.entry.isDirectory⟩ : DirEntry)
    return entries.mergeSort fun a b => Bytes.le a.name b.name

/-! ## Nodes and entries -/

variable {l : Linked}

theorem lookup_of_table {p : Bytes} {i : Nat} (h : l.table.lookup p = some i) :
    l.lookup p = l.entryOf? i := by
  rw [lookup, h]
  rfl

theorem getElem?_onChildren (nodes : List FileNode) (dir i : Nat) (f : Numbered → Numbered) :
    (onChildren nodes dir f)[i]? =
      nodes[i]?.map fun n => if i = dir then { n with body := n.body.onChildren f } else n := by
  rw [onChildren, List.getElem?_modify]
  cases nodes[i]? with
  | none => rfl
  | some n =>
    by_cases h : i = dir
    · simp [h]
    · simp [h, Ne.symm h]

theorem length_onChildren (nodes : List FileNode) (dir : Nat) (f : Numbered → Numbered) :
    (onChildren nodes dir f).length = nodes.length := by
  simp [onChildren]

theorem getElem?_link (l : Linked) (dir i : Nat) (path name : Bytes) (b : NodeBody) :
    (l.link dir path name b).nodes[i]? =
      if i = l.nodes.length then some ⟨name, b⟩
      else (onChildren l.nodes dir (·.insert name l.nodes.length))[i]? := by
  rw [link]
  by_cases hi : i = l.nodes.length
  · rw [if_pos hi, List.getElem?_append_right (by rw [length_onChildren, hi]), length_onChildren, hi,
      Nat.sub_self]
    rfl
  · rw [if_neg hi]
    by_cases hlt : i < l.nodes.length
    · rw [List.getElem?_append_left (by rwa [length_onChildren])]
    · rw [List.getElem?_eq_none, List.getElem?_eq_none]
      · rw [length_onChildren]
        omega
      · rw [List.length_append, length_onChildren, List.length_singleton]
        omega

/-! What the node with a number is, its name and its entries, after a node was linked or unlinked. -/

theorem name?_link (l : Linked) (dir i : Nat) (path name : Bytes) (b : NodeBody) :
    (l.link dir path name b).name? i = if i = l.nodes.length then some name else l.name? i := by
  rw [name?, name?, getElem?_link, getElem?_onChildren]
  split
  · rfl
  · rw [Option.map_map]
    congr 1
    funext n
    by_cases h : i = dir <;> simp [h]

theorem entryOf?_link (l : Linked) (dir i : Nat) (path name : Bytes) (b : NodeBody) :
    (l.link dir path name b).entryOf? i =
      if i = l.nodes.length then some b.entry else l.entryOf? i := by
  rw [entryOf?, entryOf?, getElem?_link, getElem?_onChildren]
  split
  · rfl
  · rw [Option.map_map]
    congr 1
    funext n
    by_cases h : i = dir <;> simp [h, NodeBody.entry_onChildren]

theorem children_onChildren {nodes : List FileNode} {n : FileNode} {dir : Nat}
    (h : nodes[dir]? = some n) (hn : n.body.entry = .directory) (i : Nat) (f : Numbered → Numbered) :
    (((onChildren nodes dir f)[i]?.map (·.body.children)).getD ∅ : Numbered) =
      if i = dir then f n.body.children else (nodes[i]?.map (·.body.children)).getD ∅ := by
  rw [getElem?_onChildren]
  by_cases hi : i = dir
  · subst hi
    simp [h, NodeBody.children_onChildren hn]
  · simp [hi]

theorem entryOf?_eq_directory {i : Nat} (h : l.entryOf? i = some .directory) :
    ∃ n, l.nodes[i]? = some n ∧ n.body.entry = .directory ∧ l.children i = n.body.children := by
  obtain ⟨n, hn, hentry⟩ := Option.map_eq_some_iff.1 h
  refine ⟨n, hn, hentry, ?_⟩
  rw [children, hn]
  rfl

theorem children_link {dir : Nat} (h : l.entryOf? dir = some .directory) (path name : Bytes)
    (b : NodeBody) (i : Nat) :
    (l.link dir path name b).children i =
      if i = l.nodes.length then b.children
      else if i = dir then (l.children dir).insert name l.nodes.length else l.children i := by
  obtain ⟨n, hn, hentry, hchildren⟩ := entryOf?_eq_directory h
  rw [children, getElem?_link]
  split
  · rfl
  · rw [children_onChildren hn hentry, hchildren]
    rfl

theorem children_unlink {dir : Nat} (h : l.entryOf? dir = some .directory) (path name : Bytes)
    (i : Nat) :
    (l.unlink dir path name).children i =
      if i = dir then (l.children dir).erase name else l.children i := by
  obtain ⟨n, hn, hentry, hchildren⟩ := entryOf?_eq_directory h
  rw [children, unlink, children_onChildren hn hentry, hchildren]
  rfl

theorem name?_unlink (l : Linked) (dir i : Nat) (path name : Bytes) :
    (l.unlink dir path name).name? i = l.name? i := by
  rw [name?, name?, unlink, getElem?_onChildren, Option.map_map]
  congr 1
  funext n
  by_cases h : i = dir <;> simp [h]

theorem entryOf?_unlink (l : Linked) (dir i : Nat) (path name : Bytes) :
    (l.unlink dir path name).entryOf? i = l.entryOf? i := by
  rw [entryOf?, entryOf?, unlink, getElem?_onChildren, Option.map_map]
  congr 1
  funext n
  by_cases h : i = dir <;> simp [h, NodeBody.entry_onChildren]

theorem table_link (l : Linked) (dir : Nat) (path name : Bytes) (b : NodeBody) (q : Bytes) :
    (l.link dir path name b).table.lookup q =
      if q = path then some l.nodes.length else l.table.lookup q := by
  rw [link]
  split
  · rename_i h
    rw [h, AList.lookup_insert]
  · rename_i h
    exact AList.lookup_insert_ne h

theorem table_unlink (l : Linked) (dir : Nat) (path name q : Bytes) :
    (l.unlink dir path name).table.lookup q = if q = path then none else l.table.lookup q := by
  rw [unlink]
  split
  · rename_i h
    rw [h, AList.lookup_erase]
  · rename_i h
    exact AList.lookup_erase_ne h

theorem key_entry {ns : List Bytes} {n : Bytes} (hns : ∀ k ∈ ns, IsEntry k) (hn : IsEntry n) :
    (∀ k ∈ ns ++ [n], IsEntry k) ∧ key (ns ++ [n]) ≠ root ∧ join (key ns) n = key (ns ++ [n]) := by
  have hsnoc : ∀ k ∈ ns ++ [n], IsEntry k := by
    intro k hk
    rcases List.mem_append.1 hk with hk | hk
    · exact hns k hk
    · rwa [List.mem_singleton.1 hk]
  refine ⟨hsnoc, fun hk => by simpa using (key_eq_root_iff hsnoc).1 hk, ?_⟩
  exact join_key hns fun k hk => hsnoc k (List.mem_append_right ns hk)

/-! ## The table and the directories say the same -/

/-- The table and the directories lead to the same nodes. -/
structure Tree (l : Linked) : Prop where
  top : ∃ i, l.table.lookup root = some i ∧ l.entryOf? i = some .directory
  clean : ∀ p i, l.table.lookup p = some i → normalize p = p
  single : ∀ p q i, l.table.lookup p = some i → l.table.lookup q = some i → p = q
  named : ∀ p i, l.table.lookup p = some i → l.name? i = some (base p)
  /-- Everything in the table but the root is an entry of the directory above it. -/
  parent : ∀ p i, l.table.lookup p = some i → p ≠ root →
    ∃ d, l.table.lookup (directory p) = some d ∧ (l.children d).lookup (base p) = some i
  /-- Every entry of a directory is in the table. -/
  child : ∀ p i n j, l.table.lookup p = some i → (l.children i).lookup n = some j →
    IsEntry n ∧ l.table.lookup (join p n) = some j

namespace Tree

theorem empty : Tree Linked.empty := by
  have htable : ∀ p i, Linked.empty.table.lookup p = some i → p = root ∧ i = 0 := by
    intro p i h
    by_cases hp : p = root
    · rw [hp] at h
      exact ⟨hp, (Option.some.inj h).symm⟩
    · rw [Linked.empty, ← AList.insert_empty, AList.lookup_insert_ne hp, AList.lookup_empty] at h
      cases h
  refine ⟨⟨0, by decide, rfl⟩, fun p i h => ?_, fun p q i hp hq => ?_, fun p i h => ?_,
    fun p i h hr => absurd (htable p i h).1 hr, fun p i n j h hn => ?_⟩
  · rw [(htable p i h).1]
    decide
  · rw [(htable p i hp).1, (htable q i hq).1]
  · obtain ⟨rfl, rfl⟩ := htable p i h
    decide
  · obtain ⟨-, rfl⟩ := htable p i h
    cases hn

variable (h : Tree l)
include h

theorem lt {p : Bytes} {i : Nat} (hp : l.table.lookup p = some i) : i < l.nodes.length := by
  obtain ⟨n, hn, -⟩ := Option.map_eq_some_iff.1 (h.named p i hp)
  exact (List.getElem?_eq_some_iff.1 hn).1

theorem key_of_table {p : Bytes} {i : Nat} (hp : l.table.lookup p = some i) :
    p = key (fromRoot p) := by
  rw [← normalize_eq, h.clean p i hp]

/-- Everything in the table but the root lies in a directory, by a name. -/
theorem eq_key_snoc {p : Bytes} {i : Nat} (hp : l.table.lookup p = some i) (hr : p ≠ root) :
    ∃ ns n, (∀ k ∈ ns, IsEntry k) ∧ IsEntry n ∧ p = key (ns ++ [n]) := by
  have hkey := h.key_of_table hp
  have hentry := isEntry_fromRoot p
  obtain hnil | ⟨ns, n, hsnoc⟩ := List.eq_nil_or_concat (fromRoot p)
  · rw [hnil] at hkey
    exact absurd hkey hr
  · rw [List.concat_eq_append] at hsnoc
    rw [hsnoc] at hkey hentry
    exact ⟨ns, n, fun k hk => hentry k (by simp [hk]), hentry n (by simp), hkey⟩

/-- What is an entry of a directory is just what the table has below it. -/
theorem child_eq {ns : List Bytes} {n : Bytes} {i : Nat} (hns : ∀ k ∈ ns, IsEntry k) (hn : IsEntry n)
    (hi : l.table.lookup (key ns) = some i) :
    (l.children i).lookup n = l.table.lookup (key (ns ++ [n])) := by
  obtain ⟨-, hr, hjoin⟩ := key_entry hns hn
  cases hchild : (l.children i).lookup n with
  | some j => rw [← hjoin, (h.child _ i n j hi hchild).2]
  | none =>
    cases hpath : l.table.lookup (key (ns ++ [n])) with
    | none => rfl
    | some j =>
      obtain ⟨d, hd, hentry⟩ := h.parent _ j hpath hr
      rw [directory_key hns hn, hi] at hd
      cases hd
      rw [base_key _ hn, hchild] at hentry
      cases hentry

/-- The same directory and the same name make the same path, and nothing else does. -/
theorem join_inj {p : Bytes} {ns : List Bytes} {n x : Bytes} {i : Nat} (hns : ∀ k ∈ ns, IsEntry k)
    (hn : IsEntry n) (hp : l.table.lookup p = some i) (hx : IsEntry x)
    (heq : join p x = key (ns ++ [n])) : p = key ns ∧ x = n := by
  have hkey := h.key_of_table hp
  have hroot := isEntry_fromRoot p
  rw [hkey, (key_entry hroot hx).2.2] at heq
  obtain ⟨hpre, hlast⟩ := List.append_inj' (key_inj (key_entry hroot hx).1 (key_entry hns hn).1 heq) rfl
  exact ⟨by rw [hkey, hpre], List.singleton_inj.1 hlast⟩

theorem table_cases {dir : Nat} {path name q : Bytes} {b : NodeBody} {i : Nat}
    (hq : (l.link dir path name b).table.lookup q = some i) :
    q = path ∧ i = l.nodes.length ∨
      q ≠ path ∧ l.table.lookup q = some i ∧ i ≠ l.nodes.length := by
  rw [table_link] at hq
  split at hq
  · rename_i heq
    exact .inl ⟨heq, (Option.some.inj hq).symm⟩
  · rename_i hne
    exact .inr ⟨hne, hq, Nat.ne_of_lt (h.lt hq)⟩

end Tree

/-- A name in a directory, where a node can be linked or unlinked. -/
structure Slot (l : Linked) (ns : List Bytes) (n : Bytes) (dir : Nat) : Prop where
  names : ∀ k ∈ ns, IsEntry k
  name : IsEntry n
  place : l.table.lookup (key ns) = some dir
  entry : l.entryOf? dir = some .directory
  /-- What stands there has no entries. -/
  leaf : ∀ i, l.table.lookup (key (ns ++ [n])) = some i → l.children i = ∅

namespace Slot

variable {ns : List Bytes} {n : Bytes} {dir : Nat} {b : NodeBody} (s : Slot l ns n dir)
include s

theorem snoc : ∀ k ∈ ns ++ [n], IsEntry k := (key_entry s.names s.name).1

theorem ne_root : key (ns ++ [n]) ≠ root := (key_entry s.names s.name).2.1

theorem join_eq : join (key ns) n = key (ns ++ [n]) := (key_entry s.names s.name).2.2

theorem ne_key : key ns ≠ key (ns ++ [n]) := fun heq => by
  simpa using congrArg List.length (key_inj s.names s.snoc heq)

/-- Another path lies in its directory under another name, if the directory is the same. -/
theorem other_parent (h : Tree l) {p : Bytes} {i : Nat} (hp : l.table.lookup p = some i)
    (hr : p ≠ root) (hne : p ≠ key (ns ++ [n])) :
    ∃ d, l.table.lookup (directory p) = some d ∧ (l.children d).lookup (base p) = some i ∧
      directory p ≠ key (ns ++ [n]) ∧ (d = dir → base p ≠ n) := by
  obtain ⟨d, hd, hchild⟩ := h.parent p i hp hr
  refine ⟨d, hd, hchild, fun heq => ?_, ?_⟩
  · rw [heq] at hd
    rw [s.leaf d hd] at hchild
    cases hchild
  · rintro rfl rfl
    obtain ⟨ms, m, hms, hm, rfl⟩ := h.eq_key_snoc hp hr
    rw [directory_key hms hm] at hd
    obtain rfl := key_inj hms s.names (h.single _ _ _ hd s.place)
    exact hne (by rw [base_key _ hm])

theorem other_child (h : Tree l) {p x : Bytes} {i j : Nat} (hp : l.table.lookup p = some i)
    (hx : (l.children i).lookup x = some j) (hne : i = dir → x ≠ n) :
    IsEntry x ∧ l.table.lookup (join p x) = some j ∧ join p x ≠ key (ns ++ [n]) := by
  obtain ⟨hentry, htable⟩ := h.child p i x j hp hx
  refine ⟨hentry, htable, fun heq => ?_⟩
  obtain ⟨rfl, rfl⟩ := h.join_inj s.names s.name hp hentry heq
  exact hne (Option.some.inj (hp.symm.trans s.place)) rfl

theorem link_parent (h : Tree l) {p : Bytes} {i : Nat}
    (hp : (l.link dir (key (ns ++ [n])) n b).table.lookup p = some i) (hr : p ≠ root) :
    ∃ d, (l.link dir (key (ns ++ [n])) n b).table.lookup (directory p) = some d ∧
      ((l.link dir (key (ns ++ [n])) n b).children d).lookup (base p) = some i := by
  rcases h.table_cases hp with ⟨rfl, rfl⟩ | ⟨hne, hold, -⟩
  · refine ⟨dir, ?_, ?_⟩
    · rw [directory_key s.names s.name, table_link, if_neg s.ne_key, s.place]
    · rw [children_link s.entry, if_neg (Nat.ne_of_lt (h.lt s.place)), if_pos rfl, base_key _ s.name,
        AList.lookup_insert]
  · obtain ⟨d, hd, hchild, hpath, hname⟩ := s.other_parent h hold hr hne
    refine ⟨d, ?_, ?_⟩
    · rw [table_link, if_neg hpath, hd]
    · rw [children_link s.entry, if_neg (Nat.ne_of_lt (h.lt hd))]
      split
      · rename_i heq
        rw [AList.lookup_insert_ne (hname heq), ← heq, hchild]
      · exact hchild

theorem link_child (h : Tree l) (hb : b.children = ∅) {p x : Bytes} {i j : Nat}
    (hp : (l.link dir (key (ns ++ [n])) n b).table.lookup p = some i)
    (hx : ((l.link dir (key (ns ++ [n])) n b).children i).lookup x = some j) :
    IsEntry x ∧ (l.link dir (key (ns ++ [n])) n b).table.lookup (join p x) = some j := by
  rcases h.table_cases hp with ⟨rfl, rfl⟩ | ⟨-, hold, hi⟩
  · rw [children_link s.entry, if_pos rfl, hb] at hx
    cases hx
  rw [children_link s.entry, if_neg hi] at hx
  rw [table_link]
  by_cases hnew : i = dir ∧ x = n
  · obtain ⟨rfl, rfl⟩ := hnew
    obtain rfl := h.single _ _ _ hold s.place
    rw [if_pos rfl, AList.lookup_insert] at hx
    exact ⟨s.name, by rw [s.join_eq, if_pos rfl, hx]⟩
  · have hother : (l.children i).lookup x = some j := by
      split at hx
      · rename_i heq
        rwa [AList.lookup_insert_ne fun hxn => hnew ⟨heq, hxn⟩, ← heq] at hx
      · exact hx
    obtain ⟨hentry, htable, hpath⟩ := s.other_child h hold hother fun heq hxn => hnew ⟨heq, hxn⟩
    exact ⟨hentry, by rw [if_neg hpath, htable]⟩

end Slot

namespace Tree

variable {ns : List Bytes} {n : Bytes} {dir : Nat}

theorem link (h : Tree l) (s : Slot l ns n dir) {b : NodeBody} (hb : b.children = ∅) :
    Tree (l.link dir (key (ns ++ [n])) n b) := by
  refine ⟨?_, fun p i hp => ?_, fun p q i hp hq => ?_, fun p i hp => ?_,
    fun p i hp hr => s.link_parent h hp hr, fun p i x j hp hx => s.link_child h hb hp hx⟩
  · obtain ⟨i, hi, htop⟩ := h.top
    refine ⟨i, ?_, ?_⟩
    · rw [table_link, if_neg s.ne_root.symm, hi]
    · rw [entryOf?_link, if_neg (Nat.ne_of_lt (h.lt hi)), htop]
  · rcases h.table_cases hp with ⟨rfl, -⟩ | ⟨-, hold, -⟩
    · exact normalize_key s.snoc
    · exact h.clean p i hold
  · rcases h.table_cases hp with ⟨rfl, rfl⟩ | ⟨-, hold, hne⟩ <;>
      rcases h.table_cases hq with ⟨rfl, hi⟩ | ⟨-, hold', hne'⟩
    · rfl
    · exact absurd rfl hne'
    · exact absurd hi hne
    · exact h.single p q i hold hold'
  · rw [name?_link]
    rcases h.table_cases hp with ⟨rfl, rfl⟩ | ⟨-, hold, hne⟩
    · rw [if_pos rfl, base_key _ s.name]
    · rw [if_neg hne, h.named p i hold]

theorem unlink (h : Tree l) (s : Slot l ns n dir) : Tree (l.unlink dir (key (ns ++ [n])) n) := by
  have hold : ∀ {q i}, (l.unlink dir (key (ns ++ [n])) n).table.lookup q = some i →
      q ≠ key (ns ++ [n]) ∧ l.table.lookup q = some i := by
    intro q i hq
    rw [table_unlink] at hq
    split at hq
    · cases hq
    · rename_i hne
      exact ⟨hne, hq⟩
  refine ⟨?_, fun p i hp => h.clean p i (hold hp).2,
    fun p q i hp hq => h.single p q i (hold hp).2 (hold hq).2,
    fun p i hp => by rw [name?_unlink, h.named p i (hold hp).2], fun p i hp hr => ?_,
    fun p i x j hp hx => ?_⟩
  · obtain ⟨i, hi, htop⟩ := h.top
    refine ⟨i, ?_, ?_⟩
    · rw [table_unlink, if_neg s.ne_root.symm, hi]
    · rw [entryOf?_unlink, htop]
  · obtain ⟨hne, hp⟩ := hold hp
    obtain ⟨d, hd, hchild, hpath, hname⟩ := s.other_parent h hp hr hne
    refine ⟨d, ?_, ?_⟩
    · rw [table_unlink, if_neg hpath, hd]
    · rw [children_unlink s.entry]
      split
      · rename_i heq
        rw [AList.lookup_erase_ne (hname heq), ← heq, hchild]
      · exact hchild
  · obtain ⟨-, hp⟩ := hold hp
    rw [children_unlink s.entry] at hx
    have hother : (l.children i).lookup x = some j ∧ (i = dir → x ≠ n) := by
      split at hx
      · rename_i heq
        by_cases hxn : x = n
        · rw [hxn, AList.lookup_erase] at hx
          cases hx
        · rw [AList.lookup_erase_ne hxn, ← heq] at hx
          exact ⟨hx, fun _ => hxn⟩
      · rename_i hne
        exact ⟨hx, fun heq => absurd heq hne⟩
    obtain ⟨hentry, htable, hpath⟩ := s.other_child h hp hother.1 hother.2
    exact ⟨hentry, by rw [table_unlink, if_neg hpath, htable]⟩

end Tree

end Linked

end Flowsmith
