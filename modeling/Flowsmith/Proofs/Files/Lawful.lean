import Flowsmith.Files.Refusing
import Flowsmith.Proofs.Files.Below
import Flowsmith.Proofs.Files.Search

/-!
# Lawful stores

What a store of files has to keep to, whatever it is made of: looking at files changes none of them, a
listing gives names of entries, and a file is changed by a write or a removal that succeeds and by
nothing else. Stores in memory keep to it, and so do stores in front of them that refuse.

* `Quiet I` : looking at files leaves `I` true, and so does every search;
* `LawfulStore` : the laws, with the content of the file at a path;
* `LawfulStore.found_of_find` : what a search gives lies below the directory, and its name matches.
-/

namespace Flowsmith

/-! ## Looking at files -/

variable {σ : Type} [FileStore σ]

/-- Looking at files leaves `I` true of the store. -/
structure Quiet (I : σ → Prop) : Prop where
  stat : ∀ p, Keeps I (FileStore.stat p)
  read : ∀ p, Keeps I (FileStore.read p)
  list : ∀ p, Keeps I (FileStore.list p)

namespace Files

variable {I : σ → Prop}

mutual

theorem keeps_walk (h : Quiet I) (ps : List Glob.Part) (depth : Nat) (dir : Bytes) :
    Keeps I (walk ps depth dir : FileM σ (List Bytes)) := by
  cases depth with
  | zero =>
    rw [walk]
    exact .pure _
  | succ depth =>
    rw [walk]
    exact (h.list dir).bind fun es => keeps_walkEntries h ps depth dir es
termination_by (depth, 0)

theorem keeps_walkEntries (h : Quiet I) (ps : List Glob.Part) (depth : Nat) (dir : Bytes)
    (es : List DirEntry) : Keeps I (walkEntries ps depth dir es : FileM σ (List Bytes)) := by
  cases es with
  | nil =>
    rw [walkEntries]
    exact .pure _
  | cons e es =>
    rw [walkEntries]
    have hrest := keeps_walkEntries h ps depth dir es
    split
    · exact (keeps_walk h ps depth _).bind fun _ => hrest.bind fun _ => .pure _
    · exact (Keeps.pure _).bind fun _ => hrest.bind fun _ => .pure _
termination_by (depth, es.length + 1)

end

theorem keeps_find (h : Quiet I) (root pattern : Bytes) :
    Keeps I (find root pattern : FileM σ (List Bytes)) := by
  unfold find
  split
  · exact .throw _
  · exact .get_bind fun _ => (keeps_walk h _ _ _).bind fun _ => .pure _

theorem keeps_findFirst? (h : Quiet I) (root pattern : Bytes) :
    Keeps I (findFirst? root pattern : FileM σ (Option Bytes)) :=
  (keeps_find h root pattern).bind fun _ => .pure _

theorem keeps_isDirectory (h : Quiet I) (path : Bytes) :
    Keeps I (isDirectory path : FileM σ Bool) := by
  unfold isDirectory
  refine .ite (.pure _) (.tryCatch ?_ fun _ => .pure _)
  exact (h.stat path).bind fun _ => .pure _

end Files

/-! ## Laws -/

/-- A store whose operations do to files what they say. -/
class LawfulStore (σ : Type) [FileStore σ] where
  /-- The content of the file at a clean path from the root. -/
  fileAt? : σ → Bytes → Option Bytes
  /-- What operations leave true of a store. -/
  Sound : σ → Prop
  quiet : ∀ files, Quiet fun s : σ => Sound s ∧ fileAt? s = files
  isEntry : ∀ {s s' : σ} {p : Bytes} {es : List DirEntry}, Sound s →
    Ends (FileStore.list p) s es s' → ∀ e ∈ es, Path.IsEntry e.name
  write : ∀ {s : σ} (p c : Bytes), Sound s → ∃ r s', ran (FileStore.write p c) s = (r, s') ∧ Sound s' ∧
    ∀ q, fileAt? s' q = if r = .ok () ∧ q = Memory.normalize p then some c else fileAt? s q
  remove : ∀ {s : σ} (p : Bytes), Sound s → ∃ r s', ran (FileStore.remove p) s = (r, s') ∧ Sound s' ∧
    ∀ q, fileAt? s' q = if r = .ok () ∧ q = Memory.normalize p then none else fileAt? s q

namespace LawfulStore

variable [LawfulStore σ]

/-- Looking at files leaves true what depends on them only. -/
theorem quiet_of_files {I : σ → Prop} (hsound : ∀ s, I s → Sound s)
    (h : ∀ s s', Sound s' → fileAt? s' = fileAt? s → I s → I s') : Quiet I where
  stat p s hs :=
    have hnext := (quiet (fileAt? s)).stat p ⟨hsound s hs, rfl⟩
    h s _ hnext.1 hnext.2 hs
  read p s hs :=
    have hnext := (quiet (fileAt? s)).read p ⟨hsound s hs, rfl⟩
    h s _ hnext.1 hnext.2 hs
  list p s hs :=
    have hnext := (quiet (fileAt? s)).list p ⟨hsound s hs, rfl⟩
    h s _ hnext.1 hnext.2 hs

theorem quiet_sound : Quiet (Sound (σ := σ)) :=
  quiet_of_files (fun _ hs => hs) fun _ _ hs' _ _ => hs'

theorem write_wrapped {s : σ} (g : Fault → Fault) (p c : Bytes) (hs : Sound s) :
    ∃ r s', ran (tryCatch (FileStore.write p c) fun f => throw (g f)) s = (r, s') ∧ Sound s' ∧
      ∀ q, fileAt? s' q = if r = .ok () ∧ q = Memory.normalize p then some c else fileAt? s q := by
  obtain ⟨r, s', hran, hs', hfiles⟩ := write p c hs
  rw [ran_tryCatch, hran]
  cases r with
  | ok u => exact ⟨_, _, rfl, hs', hfiles⟩
  | error f => exact ⟨_, _, rfl, hs', fun q => by simpa using hfiles q⟩

theorem remove_wrapped {s : σ} (g : Fault → Fault) (p : Bytes) (hs : Sound s) :
    ∃ r s', ran (tryCatch (FileStore.remove p) fun f => throw (g f)) s = (r, s') ∧ Sound s' ∧
      ∀ q, fileAt? s' q = if r = .ok () ∧ q = Memory.normalize p then none else fileAt? s q := by
  obtain ⟨r, s', hran, hs', hfiles⟩ := remove p hs
  rw [ran_tryCatch, hran]
  cases r with
  | ok u => exact ⟨_, _, rfl, hs', hfiles⟩
  | error f => exact ⟨_, _, rfl, hs', fun q => by simpa using hfiles q⟩

/-- The path goes down some names from the directory, and the last of them matches. -/
def Found (ps : List Glob.Part) (dir path : Bytes) : Prop :=
  ∃ init n, (∀ k ∈ init ++ [n], Path.IsEntry k) ∧ Glob.matchesName ps n = true ∧
    path = Path.join dir (Bytes.joinWith [Path.slash] (init ++ [n]))

theorem Found.below {ps : List Glob.Part} {dir path : Bytes} (h : Found ps dir path) :
    Path.Below dir path := by
  obtain ⟨init, n, hnames, -, rfl⟩ := h
  exact ⟨init ++ [n], by simp, hnames, rfl⟩

/-- Going down a name and then further is going down. -/
theorem found_join {ps : List Glob.Part} {dir n path : Bytes} (hdir : dir ≠ []) (hn : Path.IsEntry n)
    (h : Found ps (Path.join dir n) path) : Found ps dir path := by
  obtain ⟨init, last, hnames, hmatch, rfl⟩ := h
  refine ⟨n :: init, last, fun m hm => ?_, hmatch, Path.join_join hdir hn hnames⟩
  rcases List.mem_cons.1 hm with rfl | hm
  · exact hn
  · exact hnames m hm

theorem found_one {ps : List Glob.Part} {dir n : Bytes} (hn : Path.IsEntry n)
    (hmatch : Glob.matchesName ps n = true) : Found ps dir (Path.join dir n) :=
  ⟨[], n, fun m hm => by rwa [List.mem_singleton.1 hm], hmatch, rfl⟩

mutual

theorem found_of_walk {s s' : σ} {ps : List Glob.Part} {depth : Nat} {dir : Bytes}
    {found : List Bytes} (hs : Sound s) (hdir : dir ≠ []) (h : Ends (Files.walk ps depth dir) s found s') :
    ∀ path ∈ found, Found ps dir path := by
  cases depth with
  | zero =>
    rw [Files.walk] at h
    obtain ⟨rfl, -⟩ := Ends.pure_iff.1 h
    exact fun _ h => nomatch h
  | succ depth =>
    rw [Files.walk] at h
    obtain ⟨es, t, hlist, h⟩ := Ends.bind_iff.1 h
    exact found_of_walkEntries ((quiet_sound.list dir).ends hs hlist) hdir (isEntry hs hlist) h
termination_by (depth, 0)

theorem found_of_walkEntries {s s' : σ} {ps : List Glob.Part} {depth : Nat} {dir : Bytes}
    {es : List DirEntry} {found : List Bytes} (hs : Sound s) (hdir : dir ≠ [])
    (hes : ∀ e ∈ es, Path.IsEntry e.name)
    (h : Ends (Files.walkEntries ps depth dir es) s found s') :
    ∀ path ∈ found, Found ps dir path := by
  cases es with
  | nil =>
    rw [Files.walkEntries] at h
    obtain ⟨rfl, -⟩ := Ends.pure_iff.1 h
    exact fun _ h => nomatch h
  | cons e es =>
    have hrest : ∀ e' ∈ es, Path.IsEntry e'.name := fun e' he' => hes e' (List.mem_cons_of_mem _ he')
    have hname := hes e List.mem_cons_self
    rw [Files.walkEntries] at h
    split at h
    · obtain ⟨first, t, hfirst, h⟩ := Ends.bind_iff.1 h
      obtain ⟨more, t', hmore, h⟩ := Ends.bind_iff.1 h
      obtain ⟨rfl, -⟩ := Ends.pure_iff.1 h
      have ht := (Files.keeps_walk quiet_sound ps depth _).ends hs hfirst
      intro path hpath
      rcases List.mem_append.1 hpath with hpath | hpath
      · exact found_join hdir hname
          (found_of_walk hs (Path.join_ne_nil hdir e.name) hfirst path hpath)
      · exact found_of_walkEntries ht hdir hrest hmore path hpath
    · rw [pure_bind] at h
      obtain ⟨more, t', hmore, h⟩ := Ends.bind_iff.1 h
      obtain ⟨rfl, -⟩ := Ends.pure_iff.1 h
      intro path hpath
      rcases List.mem_append.1 hpath with hpath | hpath
      · split at hpath
        · rename_i hmatch
          rw [List.mem_singleton.1 hpath]
          exact found_one hname hmatch
        · cases hpath
      · exact found_of_walkEntries hs hdir hrest hmore path hpath
termination_by (depth, es.length + 1)

end

/-- What a search gives lies below the directory, and its name matches. -/
theorem found_of_find {s s' : σ} {dir pattern : Bytes} {found : List Bytes} (hs : Sound s) (hdir : dir ≠ [])
    (h : Ends (Files.find dir pattern) s found s') :
    ∃ ps, Glob.parse? pattern = some ps ∧ ∀ path ∈ found, Found ps dir path := by
  unfold Files.find at h
  split at h
  · simp at h
  · rename_i ps hps
    simp only [Ends.get_bind_iff] at h
    obtain ⟨paths, t, hwalk, h⟩ := Ends.bind_iff.1 h
    obtain ⟨rfl, -⟩ := Ends.pure_iff.1 h
    refine ⟨ps, hps, fun path hpath => ?_⟩
    rw [Bytes.sort, List.mem_mergeSort] at hpath
    exact found_of_walk hs hdir hwalk path hpath

theorem below_of_find {s s' : σ} {dir pattern : Bytes} {found : List Bytes} (hs : Sound s) (hdir : dir ≠ [])
    (h : Ends (Files.find dir pattern) s found s') : ∀ path ∈ found, Path.Below dir path := by
  obtain ⟨ps, -, hfound⟩ := found_of_find hs hdir h
  exact fun path hpath => (hfound path hpath).below

theorem found_of_findFirst? {s s' : σ} {dir pattern path : Bytes} (hs : Sound s) (hdir : dir ≠ [])
    (h : Ends (Files.findFirst? dir pattern) s (some path) s') :
    ∃ ps, Glob.parse? pattern = some ps ∧ Found ps dir path := by
  obtain ⟨paths, t, hfind, h⟩ := Ends.bind_iff.1 h
  obtain ⟨hfirst, -⟩ := Ends.pure_iff.1 h
  obtain ⟨ps, hps, hfound⟩ := found_of_find hs hdir hfind
  exact ⟨ps, hps, hfound path (List.mem_of_head? hfirst)⟩

theorem below_of_findFirst? {s s' : σ} {dir pattern path : Bytes} (hs : Sound s) (hdir : dir ≠ [])
    (h : Ends (Files.findFirst? dir pattern) s (some path) s') : Path.Below dir path := by
  obtain ⟨ps, -, hfound⟩ := found_of_findFirst? hs hdir h
  exact hfound.below

end LawfulStore

namespace Memory

theorem ran_list (m : Memory) (p : Bytes) : (ran (list p) m).2 = m := by
  have hkeep := ran_entryAt m p
  rw [list, ran_bind]
  generalize ran (entryAt p) m = out at hkeep
  obtain ⟨r, t⟩ := out
  cases r with
  | error f => exact hkeep
  | ok e => cases e <;> exact hkeep

/-- Looking at files in memory leaves true what depends on the table and the refusals only. -/
theorem quiet_of_table {I : Memory → Prop}
    (h : ∀ m m' : Memory, m'.table = m.table → m'.refused = m.refused → I m → I m') : Quiet I where
  stat p m hm := by
    rw [show ran (FileStore.stat p) m = ran (stat p) m from rfl, Files.ran_stat]
    exact hm
  read p m hm := by
    rw [show ran (FileStore.read p) m = ran (read p) m from rfl, ran_read]
    exact h m _ rfl rfl hm
  list p m hm := by
    rw [show ran (FileStore.list p) m = ran (list p) m from rfl, ran_list]
    exact hm

theorem quiet_same (m₀ : Memory) : Quiet (Same m₀) :=
  quiet_of_table fun _ _ htable hrefused h => ⟨htable.trans h.table, hrefused.trans h.refused⟩

instance : LawfulStore Memory where
  fileAt? := fileAt?
  Sound := Sound
  quiet files := quiet_of_table fun m m' htable hrefused hm =>
    ⟨hm.1.congr htable, (Same.fileAt? ⟨htable, hrefused⟩).trans hm.2⟩
  isEntry hm hlist e he := (((list_ends hm hlist).2 e.name e.isDirectory).1 he).1
  write p c hm := by
    obtain ⟨r, m', hran, hm', -, hfiles⟩ := ran_write hm p c
    exact ⟨r, m', hran, hm', hfiles⟩
  remove p hm := by
    obtain ⟨r, m', hran, hm', -, hfiles⟩ := ran_remove hm p
    exact ⟨r, m', hran, hm', hfiles⟩

end Memory

namespace Refusing

omit [FileStore σ] in
theorem ran_behind {α : Type} (f : FileM σ α) (r : Refusing σ) :
    ran (behind f) r = ((ran f r.base).1, { r with base := (ran f r.base).2 }) := by
  obtain ⟨a, t, h⟩ : ∃ a t, ran f r.base = (a, t) := ⟨_, _, rfl⟩
  rw [behind, ran_get_bind, show f.run r.base = (a, t) from h, h]
  cases a <;> rfl

omit [FileStore σ] in
theorem ran_unlessRefused (names : List (Bytes × Bytes)) (name : Bytes) (f : FileM σ Unit)
    (r : Refusing σ) :
    (∃ e, ran (unlessRefused names name f) r = (.error e, r)) ∨
      ran (unlessRefused names name f) r = ((ran f r.base).1, { r with base := (ran f r.base).2 }) := by
  unfold unlessRefused
  split
  · exact .inl ⟨_, rfl⟩
  · exact .inr (ran_behind f r)

omit [FileStore σ] in
theorem keeps_behind {α : Type} {I : σ → Prop} {f : FileM σ α} (h : Keeps I f) :
    Keeps (fun r : Refusing σ => I r.base) (behind f) := by
  intro r hr
  rw [ran_behind]
  exact h hr

instance [LawfulStore σ] : LawfulStore (Refusing σ) where
  fileAt? r := LawfulStore.fileAt? r.base
  Sound r := LawfulStore.Sound r.base
  quiet files :=
    have h := LawfulStore.quiet (σ := σ) files
    ⟨fun p => keeps_behind (h.stat p), fun p => keeps_behind (h.read p),
      fun p => keeps_behind (h.list p)⟩
  isEntry {r r' p es} hr hlist := by
    have hbase : Ends (FileStore.list p) r.base es (ran (FileStore.list p) r.base).2 := by
      have hran := ran_behind (FileStore.list p) r
      rw [show ran (behind (FileStore.list p)) r = _ from hlist] at hran
      exact Prod.ext (Prod.mk.inj hran).1.symm rfl
    exact LawfulStore.isEntry hr hbase
  write {r} p c hr := by
    rcases ran_unlessRefused r.writes p (FileStore.write p c) r with ⟨e, hran⟩ | hran
    · exact ⟨_, _, hran, hr, fun q => by simp⟩
    · obtain ⟨out, s', hwrite, hs', hfiles⟩ := LawfulStore.write p c hr
      rw [hwrite] at hran
      exact ⟨_, _, hran, hs', hfiles⟩
  remove {r} p hr := by
    rcases ran_unlessRefused r.removals p (FileStore.remove p) r with ⟨e, hran⟩ | hran
    · exact ⟨_, _, hran, hr, fun q => by simp⟩
    · obtain ⟨out, s', hremove, hs', hfiles⟩ := LawfulStore.remove p hr
      rw [hremove] at hran
      exact ⟨_, _, hran, hs', hfiles⟩

end Refusing

end Flowsmith
