import Flowsmith.Proofs.Files.Overlay

/-!
# The last change of a name

An overlay keeps what was written in one list and what was removed in another. Together they hold one
fact for each name: what was last done under it. So after any requests, in any order, an overlay answers
by the last change of exactly the name that is asked for, and by the store below when there was none.

* `Request` : what is asked of an overlay; `after` : the overlay after some requests;
* `Request.fate?`, `fateOf` : what a request, and the last of many, does to the file under a name;
* `answer` : what is answered about a file with a fate;
* `Records` : an overlay that records requests; `Records.step` : one more request;
* `answers_by_last_change` : what an overlay answers and lists, and what becomes of the store below.
-/

namespace Flowsmith.Overlay

variable {σ : Type} [FileStore σ]

/-! ## Requests -/

/-- What is asked of an overlay. -/
inductive Request where
  | write (name content : Bytes)
  | remove (name : Bytes)
  | makeDirs (path : Bytes)
  | read (name : Bytes)
  | stat (name : Bytes)
  | list (name : Bytes)
  deriving DecidableEq, Repr

namespace Request

/-- The operation that is asked for, without its answer. -/
def operation : Request → FileM (Overlay σ) Unit
  | write name content => FileStore.write name content
  | remove name => FileStore.remove name
  | makeDirs path => FileStore.makeDirs path
  | read name => do let _ ← FileStore.read name
  | stat name => do let _ ← FileStore.stat name
  | list name => do let _ ← FileStore.list name

def change? : Request → Option Change
  | write name _ => some ⟨.write, name⟩
  | remove name => some ⟨.remove, name⟩
  | makeDirs path => some ⟨.mkdir, path⟩
  | _ => none

/-- What becomes of the file under a name: its new content, or nothing when it is removed. Requests
that are not for the name do nothing to it. -/
def fate? (name : Bytes) : Request → Option (Option Bytes)
  | write n content => if n = name then some (some content) else none
  | remove n => if n = name then some none else none
  | _ => none

end Request

/-- What the last request that did something to the file under a name made of it. -/
def fateOf (name : Bytes) (rs : List Request) : Option (Option Bytes) :=
  rs.reverse.findSome? (Request.fate? name)

/-- The overlay after requests, whether they were answered or failed. -/
def after (o : Overlay σ) (rs : List Request) : Overlay σ :=
  rs.foldl (fun o r => (ran r.operation o).2) o

/-- The answer about a file with a fate: what is found in its content, that it is missing, or what the
store below answers, which is then as it was left by being asked. -/
def answer {α : Type} (fate : Option (Option Bytes)) (found : Bytes → α) (missing : Fault) (f : FileM σ α)
    (o : Overlay σ) : Except Fault α × Overlay σ :=
  match fate with
  | some (some content) => (.ok (found content), o)
  | some none => (.error missing, o)
  | none => ((ran f o.base).1, { o with base := (ran f o.base).2 })

/-! ## What is recorded -/

theorem fateOf_snoc (name : Bytes) (rs : List Request) (r : Request) :
    fateOf name (rs ++ [r]) = (r.fate? name).or (fateOf name rs) := by
  unfold fateOf
  rw [List.reverse_append, List.reverse_singleton, List.singleton_append, List.findSome?_cons]
  cases r.fate? name <;> rfl

/-- The overlay over a store that was `base` records the requests. -/
structure Records (base : σ) (rs : List Request) (o : Overlay σ) : Prop where
  below : ∀ I : σ → Prop, Quiet I → I base → I o.base
  changes : o.changes = rs.filterMap Request.change?
  removed : ∀ name, name ∈ o.removed ↔ fateOf name rs = some none
  content : ∀ name, o.content? name = (fateOf name rs).join

namespace Records

variable {base : σ} {rs : List Request} {o : Overlay σ}

theorem fresh (base : σ) : Records base [] { base := base } where
  below _ _ h := h
  changes := rfl
  removed _ := by simp [fateOf]
  content _ := rfl

/-- A request that changes nothing is recorded when it is handed to the store below or not at all. -/
theorem asked {r : Request} {t : σ} (h : Records base rs o) (hfate : ∀ name, r.fate? name = none)
    (hchange : r.change? = none) (ht : ∀ I : σ → Prop, Quiet I → I o.base → I t) :
    Records base (rs ++ [r]) { o with base := t } where
  below I hI hbase := ht I hI (h.below I hI hbase)
  changes := by
    rw [List.filterMap_append, List.filterMap_cons_none hchange, List.filterMap_nil, List.append_nil]
    exact h.changes
  removed name := by
    rw [fateOf_snoc, hfate, Option.none_or]
    exact h.removed name
  content name := by
    rw [fateOf_snoc, hfate, Option.none_or]
    exact h.content name

theorem write (h : Records base rs o) (n c : Bytes) :
    Records base (rs ++ [.write n c]) (o.recordWrite n c) where
  below := h.below
  changes := by
    rw [List.filterMap_append, ← h.changes]
    rfl
  removed name := by
    have hold := h.removed name
    rw [fateOf_snoc, Request.fate?]
    simp only [recordWrite, record, List.mem_filter, bne_iff_ne, hold]
    by_cases hn : n = name
    · simp [hn]
    · simp [hn, Ne.symm hn]
  content name := by
    rw [content?_recordWrite, h.content, fateOf_snoc, Request.fate?]
    by_cases hn : n = name
    · simp [hn]
    · simp [hn, Ne.symm hn]

theorem remove (h : Records base rs o) (n : Bytes) :
    Records base (rs ++ [.remove n]) (o.recordRemove n) where
  below := h.below
  changes := by
    rw [List.filterMap_append, ← h.changes]
    rfl
  removed name := by
    have hold := h.removed name
    rw [fateOf_snoc, Request.fate?]
    simp only [recordRemove, record, List.mem_cons, hold]
    by_cases hn : n = name
    · simp [hn]
    · simp [hn, Ne.symm hn]
  content name := by
    rw [content?_recordRemove, h.content, fateOf_snoc, Request.fate?]
    by_cases hn : n = name
    · simp [hn]
    · simp [hn, Ne.symm hn]

theorem makeDirs (h : Records base rs o) (p : Bytes) :
    Records base (rs ++ [.makeDirs p]) (o.record .mkdir p) where
  below := h.below
  changes := by
    rw [List.filterMap_append, ← h.changes]
    rfl
  removed name := by
    rw [fateOf_snoc]
    exact h.removed name
  content name := by
    rw [fateOf_snoc]
    exact h.content name

/-! ## What is answered -/

theorem ran_answer {α : Type} (h : Records base rs o) (name : Bytes) (found : Bytes → α)
    (missing : Fault) (f : FileM σ α) :
    ran (do
      let o ← get
      if o.removed.contains name then throw missing
      match o.content? name with
      | some content => return found content
      | none => Overlay.below f) o = answer (fateOf name rs) found missing f o := by
  rw [ran_get_bind]
  have hremoved := h.removed name
  have hcontent := h.content name
  cases hfate : fateOf name rs with
  | none =>
    rw [hfate] at hremoved hcontent
    rw [if_neg (by simpa using hremoved), hcontent]
    exact ran_below f o
  | some fate =>
    rw [hfate] at hremoved hcontent
    cases fate with
    | none =>
      rw [if_pos (by simpa using hremoved)]
      rfl
    | some content =>
      rw [if_neg (by simpa using hremoved), hcontent]
      rfl

theorem ran_read (h : Records base rs o) (name : Bytes) :
    ran (FileStore.read name) o = answer (fateOf name rs) id
      (Files.pathFault "open" name "file does not exist") (FileStore.read name) o :=
  h.ran_answer name id _ _

theorem ran_stat (h : Records base rs o) (name : Bytes) :
    ran (FileStore.stat name) o = answer (fateOf name rs)
      (fun content => ⟨Path.base name, content.length, false⟩)
      (Files.pathFault "stat" name "file does not exist") (FileStore.stat name) o :=
  h.ran_answer name _ _ _

/-- A listing is that of the store below, without the names that were last removed. -/
theorem ran_list (h : Records base rs o) (dir : Bytes) :
    ran (FileStore.list dir) o =
      ((ran (FileStore.list dir) o.base).1.map
        (List.filter fun e => fateOf (Path.join dir e.name) rs ≠ some none),
      { o with base := (ran (FileStore.list dir) o.base).2 }) := by
  show ran (Overlay.list dir) o = _
  rw [Overlay.list, ran_bind, ran_below]
  cases (ran (FileStore.list dir) o.base).1 with
  | error f => rfl
  | ok es =>
    refine Prod.ext (congrArg Except.ok (List.filter_congr fun e _ => ?_)) rfl
    simp only [← h.removed, List.contains_eq_mem, decide_not]

/-! ## One request more -/

theorem answer_below {α : Type} (o : Overlay σ) (fate : Option (Option Bytes)) (found : Bytes → α)
    (missing : Fault) {f : FileM σ α} (hf : ∀ I : σ → Prop, Quiet I → Keeps I f) :
    ∃ t, (answer fate found missing f o).2 = { o with base := t } ∧
      ∀ I : σ → Prop, Quiet I → I o.base → I t := by
  unfold answer
  split
  · exact ⟨o.base, rfl, fun _ _ h => h⟩
  · exact ⟨o.base, rfl, fun _ _ h => h⟩
  · exact ⟨_, rfl, fun I hI h => hf I hI h⟩

omit [FileStore σ] in
/-- What a request leaves does not depend on what is done with the answer. -/
theorem ran_unanswered {α : Type} (f : FileM (Overlay σ) α) (o : Overlay σ) :
    (ran (do let _ ← f) o).2 = (ran f o).2 := by
  rw [ran_bind]
  cases hf : ran f o with
  | mk r t => cases r <;> rfl

theorem step (h : Records base rs o) (r : Request) :
    Records base (rs ++ [r]) (ran r.operation o).2 := by
  cases r with
  | write n c => exact h.write n c
  | remove n => exact h.remove n
  | makeDirs p => exact h.makeDirs p
  | read n =>
    obtain ⟨t, ht, hbelow⟩ := answer_below o (fateOf n rs) id
      (Files.pathFault "open" n "file does not exist") fun I hI => hI.read n
    rw [← h.ran_read] at ht
    rw [Request.operation, ran_unanswered, ht]
    exact h.asked (fun _ => rfl) rfl hbelow
  | stat n =>
    obtain ⟨t, ht, hbelow⟩ := answer_below o (fateOf n rs)
      (fun content => (⟨Path.base n, content.length, false⟩ : FileInfo))
      (Files.pathFault "stat" n "file does not exist") fun I hI => hI.stat n
    rw [← h.ran_stat] at ht
    rw [Request.operation, ran_unanswered, ht]
    exact h.asked (fun _ => rfl) rfl hbelow
  | list dir =>
    rw [Request.operation, ran_unanswered, h.ran_list]
    exact h.asked (fun _ => rfl) rfl fun I hI hbelow => hI.list dir hbelow

theorem run (base : σ) (rs : List Request) : Records base rs (after { base := base } rs) := by
  induction rs using List.reverseRecOn with
  | nil => exact fresh base
  | append_singleton rs r ih =>
    rw [after, List.foldl_append]
    exact ih.step r

end Records

/-- **An overlay answers by the last change of a name.** After any requests the store below is as it was
to everyone who only looks at it; a file is read and looked at as the last write under exactly its name
left it, is missing after a removal, and is that of the store below when there was neither; a directory
is listed as below, without the entries whose names were last removed; and the changes are the requests
for one, in order. -/
theorem answers_by_last_change (base : σ) (rs : List Request) :
    let o := after { base := base } rs
    (∀ I : σ → Prop, Quiet I → I base → I o.base) ∧
    (∀ name, ran (FileStore.read name) o = answer (fateOf name rs) id
      (Files.pathFault "open" name "file does not exist") (FileStore.read name) o) ∧
    (∀ name, ran (FileStore.stat name) o = answer (fateOf name rs)
      (fun content => ⟨Path.base name, content.length, false⟩)
      (Files.pathFault "stat" name "file does not exist") (FileStore.stat name) o) ∧
    (∀ dir, ran (FileStore.list dir) o =
      ((ran (FileStore.list dir) o.base).1.map
        (List.filter fun e => fateOf (Path.join dir e.name) rs ≠ some none),
      { o with base := (ran (FileStore.list dir) o.base).2 })) ∧
    o.changes = rs.filterMap Request.change? := by
  have h := Records.run base rs
  exact ⟨h.below, h.ran_read, h.ran_stat, h.ran_list, h.changes⟩

def twoFiles : Memory :=
  { table := [(Memory.root, .directory), ("/a", .file "old"), ("/b", .file "kept")] }

/-- A file that is removed and written again, and one that is written and removed. -/
def backAndForth : List Request :=
  [.remove "/a", .write "/b" "new", .read "/b", .makeDirs "/d", .list "/", .write "/a" "again", .remove "/b"]

theorem answers_by_last_change_twoFiles :
    let o := after { base := twoFiles } backAndForth
    Quiet (Memory.Same twoFiles) ∧ Memory.Same twoFiles twoFiles ∧ Memory.Same twoFiles o.base ∧
    ran (FileStore.read "/a") o = (.ok "again", o) ∧
    ran (FileStore.read "/b") o = (.error (Files.pathFault "open" "/b" "file does not exist"), o) ∧
    o.changes = [⟨.remove, "/a"⟩, ⟨.write, "/b"⟩, ⟨.mkdir, "/d"⟩, ⟨.write, "/a"⟩, ⟨.remove, "/b"⟩] := by
  have hquiet := Memory.quiet_same twoFiles
  have hsame : Memory.Same twoFiles twoFiles := ⟨rfl, rfl⟩
  obtain ⟨hbelow, hread, -, -, hchanges⟩ := answers_by_last_change twoFiles backAndForth
  refine ⟨hquiet, hsame, hbelow _ hquiet hsame, (hread "/a").trans ?_, (hread "/b").trans ?_, hchanges⟩
  · rw [show fateOf "/a" backAndForth = some (some ("again" : Bytes)) by decide]
    rfl
  · rw [show fateOf "/b" backAndForth = some none by decide]
    rfl

end Flowsmith.Overlay
