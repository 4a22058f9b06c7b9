import Flowsmith.Proofs.Files.Lawful

/-!
# Stores that keep a record

A store in front of another one that does the same and writes down what was done: every file that was
written or removed, in order, and nothing that failed. From the files at the beginning the record gives
the files at the end.

* `Shows R`, `Mirrors R` : stores that `R` relates give the same answers, and so does every search;
* `Refusing.mirrors` : a store that refuses nothing;
* `Logged` : a store with a record of `Deed`s;
* `Logged.mirrors` : keeping a record changes nothing;
* `Logged.Recorded` : the files are what the record makes of those at the beginning;
* `Logged.Does` : an operation that does one thing, or fails.
-/

namespace Flowsmith

/-! ## Stores that give the same answers -/

/-- Stores that `R` relates give the same answers to who looks at files, and are related afterwards. -/
structure Shows {σ τ : Type} [FileStore σ] [FileStore τ] (R : σ → τ → Prop) : Prop where
  stat : ∀ p, Agree R (FileStore.stat p) (FileStore.stat p)
  read : ∀ p, Agree R (FileStore.read p) (FileStore.read p)
  list : ∀ p, Agree R (FileStore.list p) (FileStore.list p)
  nesting : ∀ s t, R s t → FileStore.nesting s = FileStore.nesting t

/-- They also do when files are written and removed. -/
structure Mirrors {σ τ : Type} [FileStore σ] [FileStore τ] (R : σ → τ → Prop) : Prop extends Shows R where
  write : ∀ p c, Agree R (FileStore.write p c) (FileStore.write p c)
  remove : ∀ p, Agree R (FileStore.remove p) (FileStore.remove p)

namespace Files

variable {σ τ : Type} [FileStore σ] [FileStore τ] {R : σ → τ → Prop}

mutual

theorem agree_walk (h : Shows R) (ps : List Glob.Part) (depth : Nat) (dir : Bytes) :
    Agree R (walk ps depth dir) (walk ps depth dir) := by
  cases depth with
  | zero =>
    rw [walk, walk]
    exact .pure _
  | succ depth =>
    rw [walk, walk]
    exact (h.list dir).bind fun es => agree_walkEntries h ps depth dir es
termination_by (depth, 0)

theorem agree_walkEntries (h : Shows R) (ps : List Glob.Part) (depth : Nat) (dir : Bytes)
    (es : List DirEntry) : Agree R (walkEntries ps depth dir es) (walkEntries ps depth dir es) := by
  cases es with
  | nil =>
    rw [walkEntries, walkEntries]
    exact .pure _
  | cons e es =>
    rw [walkEntries, walkEntries]
    have hrest := agree_walkEntries h ps depth dir es
    split
    · exact (agree_walk h ps depth _).bind fun _ => hrest.bind fun _ => .pure _
    · exact (Agree.pure _).bind fun _ => hrest.bind fun _ => .pure _
termination_by (depth, es.length + 1)

end

theorem agree_find (h : Shows R) (root pattern : Bytes) :
    Agree R (find root pattern) (find root pattern) := by
  unfold find
  split
  · exact .throw _
  · refine .get_bind fun s t hst => ?_
    rw [h.nesting s t hst]
    exact (agree_walk h _ _ _).bind fun _ => .pure _

theorem agree_findFirst? (h : Shows R) (root pattern : Bytes) :
    Agree R (findFirst? root pattern) (findFirst? root pattern) :=
  (agree_find h root pattern).bind fun _ => .pure _

theorem agree_isDirectory (h : Shows R) (path : Bytes) :
    Agree R (isDirectory path) (isDirectory path) := by
  unfold isDirectory
  exact .ite (.pure _) (.tryCatch ((h.stat path).bind fun _ => .pure _) fun _ => .pure _)

end Files

theorem Refusing.shown {σ : Type} [FileStore σ] : Shows fun (s : σ) (r : Refusing σ) => r.base = s := by
  have hbehind : ∀ {α : Type} (f : FileM σ α),
    Agree (fun (s : σ) (r : Refusing σ) => r.base = s) f (behind f) := by
    rintro α f s r rfl
    rw [ran_behind]
    exact ⟨rfl, rfl⟩
  refine ⟨fun p => hbehind _, fun p => hbehind _, fun p => hbehind _, ?_⟩
  rintro s r rfl
  rfl

theorem Refusing.mirrors {σ : Type} [FileStore σ] :
    Mirrors fun (r : Refusing σ) s => r = { base := s } := by
  have hbehind : ∀ {α : Type} (f : FileM σ α),
      Agree (fun (r : Refusing σ) s => r = { base := s }) (behind f) f := by
    rintro α f r s rfl
    rw [ran_behind]
    exact ⟨rfl, rfl⟩
  refine ⟨⟨fun p => hbehind _, fun p => hbehind _, fun p => hbehind _, ?_⟩, fun p c => ?_, fun p => ?_⟩
  · rintro r s rfl
    rfl
  · rintro r s rfl
    exact hbehind (FileStore.write p c) rfl
  · rintro r s rfl
    exact hbehind (FileStore.remove p) rfl

/-! ## Records -/

/-- What was done to a file. -/
inductive Deed where
  | write (path content : Bytes)
  | remove (path : Bytes)
  deriving DecidableEq, Repr

namespace Deed

def path : Deed → Bytes
  | write path _ => path
  | remove path => path

/-- What a file is afterwards: its new content, or nothing. -/
def result? : Deed → Option Bytes
  | write _ content => some content
  | remove _ => none

def apply (files : Bytes → Option Bytes) (d : Deed) : Bytes → Option Bytes := fun q =>
  if q = Memory.normalize d.path then d.result? else files q

def replay (files : Bytes → Option Bytes) (log : List Deed) : Bytes → Option Bytes :=
  log.foldl apply files

theorem replay_snoc (files : Bytes → Option Bytes) (log : List Deed) (d : Deed) :
    replay files (log ++ [d]) = apply (replay files log) d := by
  simp [replay]

theorem replay_cases (files : Bytes → Option Bytes) (log : List Deed) (q : Bytes) :
    replay files log q = files q ∨
      ∃ d ∈ log, Memory.normalize d.path = q ∧ replay files log q = d.result? := by
  induction log using List.reverseRecOn with
  | nil => exact .inl rfl
  | append_singleton log d ih =>
    rw [replay_snoc, apply]
    split
    · rename_i hq
      exact .inr ⟨d, by simp, hq.symm, rfl⟩
    · rcases ih with ih | ⟨d', hd', ih⟩
      · exact .inl ih
      · exact .inr ⟨d', by simp [hd'], ih⟩

end Deed

/-- A store with a record of what was done to files. -/
structure Logged (σ : Type) where
  base : σ
  log : List Deed := []

namespace Logged

variable {σ : Type}

def behind {α : Type} (f : FileM σ α) : FileM (Logged σ) α := do
  let l ← get
  let (result, base) := f.run l.base
  set { l with base := base }
  MonadExcept.ofExcept result

def note (d : Deed) : FileM (Logged σ) Unit := modify fun l => { l with log := l.log ++ [d] }

instance [FileStore σ] : FileStore (Logged σ) where
  stat name := behind (FileStore.stat name)
  read name := behind (FileStore.read name)
  write name content := do
    behind (FileStore.write name content)
    note (.write name content)
  remove name := do
    behind (FileStore.remove name)
    note (.remove name)
  makeDirs name := behind (FileStore.makeDirs name)
  list name := behind (FileStore.list name)
  nesting l := FileStore.nesting l.base

theorem ran_behind {α : Type} (f : FileM σ α) (l : Logged σ) :
    ran (behind f) l = ((ran f l.base).1, { l with base := (ran f l.base).2 }) := by
  show ran (MonadExcept.ofExcept (ran f l.base).1) { l with base := (ran f l.base).2 } = _
  rw [ran_ofExcept]

/-- What was done is written down when it succeeded. -/
theorem ran_noted (f : FileM σ Unit) (d : Deed) (l : Logged σ) :
    ran (behind f >>= fun _ => note d) l =
      match ran f l.base with
      | (.ok _, t) => (.ok (), ⟨t, l.log ++ [d]⟩)
      | (.error e, t) => (.error e, ⟨t, l.log⟩) := by
  rw [ran_bind, ran_behind]
  rcases ran f l.base with ⟨r, t⟩
  cases r <;> rfl

theorem keeps_behind {α : Type} {I : σ → Prop} {f : FileM σ α} (h : Keeps I f) :
    Keeps (fun l : Logged σ => I l.base) (behind f) := by
  intro l hl
  rw [ran_behind]
  exact h hl

theorem agree_behind {α : Type} (f : FileM σ α) :
    Agree (fun (l : Logged σ) s => l.base = s) (behind f) f := by
  rintro l s rfl
  rw [ran_behind]
  exact ⟨rfl, rfl⟩

theorem agree_noted (f : FileM σ Unit) (d : Deed) :
    Agree (fun (l : Logged σ) s => l.base = s) (behind f >>= fun _ => note d) f := by
  rintro l s rfl
  rw [ran_noted]
  generalize ran f l.base = out
  rcases out with ⟨r, t⟩
  cases r <;> exact ⟨rfl, rfl⟩

variable [FileStore σ]

/-- Keeping a record changes nothing. -/
theorem mirrors : Mirrors fun (l : Logged σ) s => l.base = s where
  stat p := agree_behind _
  read p := agree_behind _
  write p c := agree_noted _ _
  remove p := agree_noted _ _
  list p := agree_behind _
  nesting l s hs := by
    rw [← hs]
    rfl

variable [LawfulStore σ]

instance : LawfulStore (Logged σ) where
  fileAt? l := LawfulStore.fileAt? l.base
  Sound l := LawfulStore.Sound l.base
  quiet files :=
    have h := LawfulStore.quiet (σ := σ) files
    ⟨fun p => keeps_behind (h.stat p), fun p => keeps_behind (h.read p),
      fun p => keeps_behind (h.list p)⟩
  isEntry {l l' p es} hl hlist := by
    have hran := ran_behind (FileStore.list p) l
    rw [show ran (behind (FileStore.list p)) l = _ from hlist] at hran
    exact LawfulStore.isEntry hl (Prod.ext (Prod.mk.inj hran).1.symm rfl)
  write {l} p c hl := by
    obtain ⟨r, t, hran, hsound, hfiles⟩ := LawfulStore.write p c hl
    have hnoted := ran_noted (FileStore.write p c) (.write p c) l
    rw [hran] at hnoted
    cases r <;> exact ⟨_, _, hnoted, hsound, hfiles⟩
  remove {l} p hl := by
    obtain ⟨r, t, hran, hsound, hfiles⟩ := LawfulStore.remove p hl
    have hnoted := ran_noted (FileStore.remove p) (.remove p) l
    rw [hran] at hnoted
    cases r <;> exact ⟨_, _, hnoted, hsound, hfiles⟩

/-- The record is `log`, and from the files at the beginning it gives the files now. -/
structure Recorded (files : Bytes → Option Bytes) (log : List Deed) (l : Logged σ) : Prop where
  sound : LawfulStore.Sound l
  log_eq : l.log = log
  files_eq : LawfulStore.fileAt? l = Deed.replay files log

variable {files : Bytes → Option Bytes} {log : List Deed}

theorem keeps_behind_recorded {α : Type} {f : FileM σ α}
    (h : Keeps (fun s => LawfulStore.Sound s ∧ LawfulStore.fileAt? s = Deed.replay files log) f) :
    Keeps (Recorded files log) (behind f) := by
  intro l hl
  rw [ran_behind]
  obtain ⟨hsound, hfiles⟩ := h ⟨hl.sound, hl.files_eq⟩
  exact ⟨hsound, hl.log_eq, hfiles⟩

theorem quiet_recorded : Quiet (Recorded (σ := σ) files log) :=
  have h := LawfulStore.quiet (σ := σ) (Deed.replay files log)
  ⟨fun p => keeps_behind_recorded (h.stat p), fun p => keeps_behind_recorded (h.read p),
    fun p => keeps_behind_recorded (h.list p)⟩

/-- The operation does `d` and gives `a`: when it succeeds that is the last of the record, and when it
fails the record stays as it is. -/
def Does {α : Type} (d : Deed) (f : FileM (Logged σ) α) (a : α) : Prop :=
  ∀ ⦃files log l⦄, Recorded files log l →
    (∃ l', ran f l = (.ok a, l') ∧ Recorded files (log ++ [d]) l') ∨
      ∃ e l', ran f l = (.error e, l') ∧ Recorded files log l'

theorem does_noted {f : FileM σ Unit} {d : Deed}
    (hf : ∀ {s : σ}, LawfulStore.Sound s → ∃ r t, ran f s = (r, t) ∧ LawfulStore.Sound t ∧
      ∀ q, LawfulStore.fileAt? t q =
        if r = .ok () ∧ q = Memory.normalize d.path then d.result? else LawfulStore.fileAt? s q) :
    Does d (behind f >>= fun _ => note d) () := by
  intro files log l hl
  obtain ⟨r, t, hran, hsound, hfiles⟩ := hf hl.sound
  rw [ran_noted, hran]
  rw [show LawfulStore.fileAt? l.base = _ from hl.files_eq] at hfiles
  cases r with
  | error e =>
    refine .inr ⟨e, _, rfl, hsound, hl.log_eq, ?_⟩
    funext q
    exact (hfiles q).trans (if_neg nofun)
  | ok u =>
    refine .inl ⟨_, rfl, hsound, by rw [hl.log_eq], ?_⟩
    funext q
    rw [Deed.replay_snoc, Deed.apply]
    simp only [true_and] at hfiles
    exact hfiles q

theorem does_write (p c : Bytes) : Does (σ := σ) (.write p c) (FileStore.write p c) () :=
  does_noted (LawfulStore.write p c)

theorem does_remove (p : Bytes) : Does (σ := σ) (.remove p) (FileStore.remove p) () :=
  does_noted (LawfulStore.remove p)

namespace Does

variable {α β : Type} {d : Deed} {f : FileM (Logged σ) α} {a : α}

theorem tryCatch (h : Does d f a) (g : Fault → Fault) :
    Does d (tryCatch f fun e => throw (g e)) a := by
  intro files log l hl
  rw [ran_tryCatch]
  rcases h hl with ⟨l', hran, hl'⟩ | ⟨e, l', hran, hl'⟩
  · rw [hran]
    exact .inl ⟨l', rfl, hl'⟩
  · rw [hran]
    exact .inr ⟨g e, l', rfl, hl'⟩

theorem bind_pure (h : Does d f a) (b : β) : Does d (f >>= fun _ => pure b) b := by
  intro files log l hl
  rw [ran_bind]
  rcases h hl with ⟨l', hran, hl'⟩ | ⟨e, l', hran, hl'⟩
  · rw [hran]
    exact .inl ⟨l', rfl, hl'⟩
  · rw [hran]
    exact .inr ⟨e, l', rfl, hl'⟩

end Does

end Logged

end Flowsmith
