import Flowsmith.Files.Overlay
import Flowsmith.Proofs.Files.Lawful
import Flowsmith.Proofs.Files.Logged
import Flowsmith.Proofs.Files.Steady

/-!
# Overlays over files in memory

An overlay stands for the store in which its changes are made. What was written is pending over the
store below, what was removed hides it, and paths are told apart by how they are written. So the two
give the same answers for paths of which each place has one only, as long as what was written without
being there is not searched for.

* `Overlay.mirrors_below` : the store below is only looked at;
* `Overlay.shows_unchanged` : an overlay without changes;
* `Overlay.fileAt?` : the file under a name, pending or below;
* `Overlay.walk_ends` : a walk gives what the store below gives, without what was removed;
* `Shadows` : an overlay stands for a store;
* `Shadows.find`, `Shadows.read`, `Shadows.write`, `Shadows.remove` : the operations on both.
-/

namespace Flowsmith

open Flowsmith.Path Memory

namespace Overlay

/-! ## Answers of an overlay -/

theorem ran_below {σ α : Type} (f : FileM σ α) (o : Overlay σ) :
    ran (below f) o = ((ran f o.base).1, { o with base := (ran f o.base).2 }) := by
  obtain ⟨a, t, h⟩ : ∃ a t, ran f o.base = (a, t) := ⟨_, _, rfl⟩
  rw [below, ran_get_bind, show f.run o.base = (a, t) from h, h]
  cases a <;> rfl

section Below

variable {σ : Type} [FileStore σ] {I : σ → Prop}

omit [FileStore σ] in
theorem keeps_below {α : Type} {f : FileM σ α} (h : Keeps I f) :
    Keeps (fun o : Overlay σ => I o.base) (below f) := by
  intro o ho
  rw [ran_below]
  exact h ho

/-- Whatever is done to an overlay, the store below is only looked at. -/
theorem mirrors_below (h : Quiet I) : Mirrors fun o o' : Overlay σ => o = o' ∧ I o.base := by
  have hkeeps : ∀ {α : Type} {f : FileM (Overlay σ) α}, Keeps (fun o : Overlay σ => I o.base) f →
      Agree (fun o o' : Overlay σ => o = o' ∧ I o.base) f f := by
    rintro α f hf o _ ⟨rfl, ho⟩
    exact ⟨rfl, rfl, hf ho⟩
  refine ⟨⟨fun p => hkeeps ?_, fun p => hkeeps ?_, fun p => hkeeps ?_, ?_⟩, fun p c => hkeeps ?_,
    fun p => hkeeps ?_⟩
  · refine .get_bind fun o => .ite (.throw _) ?_
    cases o.content? p with
    | some text => exact .pure _
    | none => exact keeps_below (h.stat p)
  · refine .get_bind fun o => .ite (.throw _) ?_
    cases o.content? p with
    | some text => exact .pure _
    | none => exact keeps_below (h.read p)
  · exact (keeps_below (h.list p)).bind fun es => .get_bind fun o => .pure _
  · rintro o _ ⟨rfl, -⟩
    rfl
  · exact .modify fun _ ho => ho
  · exact .modify fun _ ho => ho

theorem shows_unchanged :
    Shows fun (o : Overlay σ) s => o.base = s ∧ o.written = [] ∧ o.removed = [] := by
  have hbelow : ∀ {α : Type} (f : FileM σ α),
      Agree (fun (o : Overlay σ) s => o.base = s ∧ o.written = [] ∧ o.removed = []) (below f) f := by
    rintro α f o s ⟨rfl, hwritten, hremoved⟩
    rw [ran_below]
    exact ⟨rfl, rfl, hwritten, hremoved⟩
  have hran : ∀ {α : Type} {f : FileM (Overlay σ) α} {g : FileM σ α},
      (∀ o : Overlay σ, o.written = [] → o.removed = [] → ran f o = ran (below g) o) →
      Agree (fun (o : Overlay σ) s => o.base = s ∧ o.written = [] ∧ o.removed = []) f g := by
    rintro α f g h o s ⟨hbase, hwritten, hremoved⟩
    rw [h o hwritten hremoved]
    exact hbelow g ⟨hbase, hwritten, hremoved⟩
  refine ⟨fun p => hran fun o hwritten hremoved => ?_, fun p => hran fun o hwritten hremoved => ?_,
    fun p => hran fun o _ hremoved => ?_, ?_⟩
  · show ran (stat p) o = _
    rw [stat, ran_get_bind]
    simp [hremoved, content?, hwritten]
  · show ran (read p) o = _
    rw [read, ran_get_bind]
    simp [hremoved, content?, hwritten]
  · show ran (list p) o = _
    rw [list, ran_bind, ran_below]
    cases (ran (FileStore.list p) o.base).1 with
    | error f => rfl
    | ok es =>
      show (Except.ok (es.filter fun e => !o.removed.contains (join p e.name)), _) = _
      rw [hremoved]
      simp
  · rintro o s ⟨rfl, -, -⟩
    rfl

end Below

/-- The file under a name, pending or in the store below. -/
def fileAt? (o : Overlay Memory) (p : Bytes) : Option Bytes :=
  if p ∈ o.removed then none else (o.content? p).or (o.base.fileAt? (normalize p))

/-- Without the entries under one name, there is none under that one and the same under others. -/
theorem find?_filter_ne (written : List (Bytes × Bytes)) (n p : Bytes) :
    (written.filter (·.1 != n)).find? (·.1 == p) =
      if p = n then none else written.find? (·.1 == p) := by
  rw [List.find?_filter]
  by_cases hp : p = n
  · rw [if_pos hp]
    exact List.find?_eq_none.2 fun e _ => by simp [hp]
  · rw [if_neg hp]
    congr 1
    funext e
    by_cases he : e.1 = p <;> simp [he, hp]

theorem content?_recordWrite {σ : Type} (o : Overlay σ) (n c p : Bytes) :
    (o.recordWrite n c).content? p = if p = n then some c else o.content? p := by
  simp only [content?, recordWrite, record, List.find?_cons, find?_filter_ne]
  by_cases hp : p = n
  · simp [hp]
  · simp [hp, show (n == p) = false from beq_false_of_ne (Ne.symm hp)]

theorem content?_recordRemove {σ : Type} (o : Overlay σ) (n p : Bytes) :
    (o.recordRemove n).content? p = if p = n then none else o.content? p := by
  simp only [content?, recordRemove, record, find?_filter_ne]
  by_cases hp : p = n <;> simp [hp]

theorem fileAt?_recordWrite (o : Overlay Memory) (n c p : Bytes) :
    (o.recordWrite n c).fileAt? p = if p = n then some c else o.fileAt? p := by
  rw [fileAt?, fileAt?, content?_recordWrite]
  simp only [recordWrite, record, List.mem_filter, bne_iff_ne]
  by_cases hp : p = n <;> simp [hp]

theorem fileAt?_recordRemove (o : Overlay Memory) (n p : Bytes) :
    (o.recordRemove n).fileAt? p = if p = n then none else o.fileAt? p := by
  rw [fileAt?, fileAt?, content?_recordRemove]
  simp only [recordRemove, record, List.mem_cons]
  by_cases hp : p = n <;> simp [hp]

theorem isDirectory_ends {o : Overlay Memory} {path : Bytes} (hne : path ≠ []) {d : Bool}
    (hbase : Ends (Files.isDirectory path) o.base d o.base) :
    Ends (Files.isDirectory path) o
      (decide (path ∉ o.removed ∧ o.content? path = none) && d) o := by
  rw [Ends, Files.isDirectory, if_neg (by simpa using hne), ran_tryCatch, ran_bind,
    show ran (FileStore.stat path) o = ran (stat path) o from rfl, stat, ran_get_bind]
  by_cases hgone : path ∈ o.removed
  · rw [if_pos (by simpa using hgone)]
    simp [hgone]
  · rw [if_neg (by simpa using hgone)]
    cases hcontent : o.content? path with
    | some text => simp
    | none =>
      rw [Ends, Files.isDirectory, if_neg (by simpa using hne), ran_tryCatch, ran_bind] at hbase
      simp only [ran_below]
      obtain ⟨r, t, hstat⟩ : ∃ r t, ran (FileStore.stat path) o.base = (r, t) := ⟨_, _, rfl⟩
      rw [hstat] at hbase ⊢
      cases r with
      | error f =>
        obtain ⟨hd, rfl⟩ := Prod.mk.inj hbase
        simpa [hgone] using hd
      | ok info =>
        obtain ⟨hd, rfl⟩ := Prod.mk.inj hbase
        simpa [hgone] using hd

/-! ## Searching an overlay -/

section Walk

variable {o : Overlay Memory} {ps : List Glob.Part}

theorem list_ends {dir : Bytes} {es : List DirEntry} (h : Ends (Memory.list dir) o.base es o.base) :
    Ends (list dir) o (es.filter fun e => !o.removed.contains (join dir e.name)) o := by
  have hbelow : Ends (below (FileStore.list dir)) o es o := by
    rw [Ends, ran_below, show ran (FileStore.list dir) o.base = _ from h]
  exact Ends.bind_iff.2 ⟨es, o, hbelow, rfl⟩

/-- The walk through entries of a directory, when the walks one level down are known. -/
theorem walkEntries_ends {depth : Nat} {dir : Bytes} {es : List DirEntry} {found : List Bytes}
    (hwalk : ∀ n found t, Ends (Files.walk ps depth (join dir n)) o.base found t →
      t = o.base ∧ Ends (Files.walk ps depth (join dir n)) o (found.filter (· ∉ o.removed)) o)
    (hes : ∀ e ∈ es, e.isDirectory = true → join dir e.name ∉ o.removed)
    (h : Ends (Files.walkEntries ps depth dir es) o.base found o.base) :
    Ends (Files.walkEntries ps depth dir
      (es.filter fun e => !o.removed.contains (join dir e.name))) o
      (found.filter (· ∉ o.removed)) o := by
  induction es generalizing found with
  | nil =>
    rw [Files.walkEntries] at h
    obtain ⟨rfl, -⟩ := Ends.pure_iff.1 h
    rw [List.filter_nil, Files.walkEntries]
    exact Ends.pure_iff.2 ⟨rfl, rfl⟩
  | cons e es ih =>
    have ih := fun {found} => @ih found fun e he => hes e (List.mem_cons_of_mem _ he)
    rw [Files.walkEntries] at h
    by_cases hd : e.isDirectory = true
    · rw [if_pos hd] at h
      obtain ⟨first, t, hfirst, h⟩ := Ends.bind_iff.1 h
      obtain ⟨rfl, hseen⟩ := hwalk e.name first t hfirst
      obtain ⟨more, t', hmore, h⟩ := Ends.bind_iff.1 h
      obtain ⟨rfl, rfl⟩ := Ends.pure_iff.1 h
      rw [List.filter_cons_of_pos (by simpa using hes e List.mem_cons_self hd), Files.walkEntries,
        if_pos hd, List.filter_append]
      exact Ends.bind_iff.2 ⟨_, o, hseen, Ends.bind_iff.2 ⟨_, o, ih hmore, rfl⟩⟩
    · rw [if_neg hd, pure_bind] at h
      obtain ⟨more, t', hmore, h⟩ := Ends.bind_iff.1 h
      obtain ⟨rfl, rfl⟩ := Ends.pure_iff.1 h
      by_cases hgone : join dir e.name ∈ o.removed
      · -- a file that was removed is not met
        have hnone : (if Glob.matchesName ps e.name then [join dir e.name] else []).filter
            (· ∉ o.removed) = [] := by
          split <;> simp [hgone]
        rw [List.filter_cons_of_neg (by simpa using hgone), List.filter_append, hnone, List.nil_append]
        exact ih hmore
      · have hall : (if Glob.matchesName ps e.name then [join dir e.name] else []).filter
            (· ∉ o.removed) = if Glob.matchesName ps e.name then [join dir e.name] else [] := by
          split <;> simp [hgone]
        rw [List.filter_cons_of_pos (by simpa using hgone), Files.walkEntries, if_neg hd, pure_bind,
          List.filter_append, hall]
        exact Ends.bind_iff.2 ⟨_, o, ih hmore, rfl⟩

/-- A walk gives what the store below gives, without what was removed, when no directory was. -/
theorem walk_ends (hbase : Sound o.base)
    (hremoved : ∀ p ∈ o.removed, o.base.lookup (normalize p) ≠ some .directory) {depth : Nat}
    {dir : Bytes} {found : List Bytes} (hdir : dir ≠ [])
    (h : Ends (Files.walk ps depth dir) o.base found o.base) :
    Ends (Files.walk ps depth dir) o (found.filter (· ∉ o.removed)) o := by
  induction depth generalizing dir found with
  | zero =>
    rw [Files.walk] at h ⊢
    obtain ⟨rfl, -⟩ := Ends.pure_iff.1 h
    exact Ends.pure_iff.2 ⟨rfl, rfl⟩
  | succ depth ih =>
    rw [Files.walk] at h ⊢
    obtain ⟨es, t, hlist, h⟩ := Ends.bind_iff.1 h
    obtain ⟨rfl, hes⟩ := Memory.list_ends hbase hlist
    refine Ends.bind_iff.2 ⟨_, o, list_ends hlist, walkEntries_ends (fun n found t hwalk => ?_) ?_ h⟩
    · have hnext := join_ne_nil hdir n
      obtain rfl := (Files.walk_ends hbase hnext hwalk).1
      exact ⟨rfl, ih hnext hwalk⟩
    · intro e he hd hgone
      obtain ⟨hn, x, hlookup, hkind⟩ := (hes e.name e.isDirectory).1 he
      refine hremoved _ hgone ?_
      rw [normalize_eq, Files.fromRoot_join_entry hdir hn, hlookup]
      rw [hd] at hkind
      cases x with
      | file c => cases hkind
      | directory => rfl

/-- A search gives what the store below gives, without what was removed, when no directory was. -/
theorem find_ends (hbase : Sound o.base)
    (hremoved : ∀ p ∈ o.removed, o.base.lookup (normalize p) ≠ some .directory) {dir pattern : Bytes}
    {found : List Bytes} (hdir : dir ≠ []) (h : Ends (Files.find dir pattern) o.base found o.base) :
    Ends (Files.find dir pattern) o (found.filter (· ∉ o.removed)) o := by
  have hsorted := (Files.sorted_find h).filter (· ∉ o.removed)
  unfold Files.find at h ⊢
  split at h
  · simp at h
  rename_i ps hps
  simp only [Ends.get_bind_iff] at h ⊢
  obtain ⟨paths, t, hwalk, hend⟩ := Ends.bind_iff.1 h
  obtain ⟨rfl, rfl⟩ := Ends.pure_iff.1 hend
  have hperm : (paths.filter (· ∉ o.removed)).Perm ((Bytes.sort paths).filter (· ∉ o.removed)) :=
    ((List.mergeSort_perm paths _).filter _).symm
  refine Ends.bind_iff.2 ⟨_, o, walk_ends hbase hremoved hdir hwalk, Ends.pure_iff.2 ⟨?_, rfl⟩⟩
  exact Bytes.sort_eq_of_perm hperm hsorted

end Walk

end Overlay

/-! ## Overlays that stand for stores -/

def Apart (P : Bytes → Prop) : Prop := ∀ ⦃p q⦄, P p → P q → normalize p = normalize q → p = q

/-- The overlay over the files `m₀` stands for the files `m`, where changes are made at the paths `P`
only. What it lists was there, except for the paths `U`. -/
structure Shadows (P U : Bytes → Prop) (m₀ : Memory) (o : Overlay Memory) (m : Memory) : Prop where
  sound : Sound m₀
  refused : m₀.refused = []
  same : Same m₀ o.base
  steady : Steady m₀ m
  removed : ∀ p ∈ o.removed, P p ∧ ∃ c, m₀.fileAt? (normalize p) = some c
  written : ∀ p c, o.content? p = some c → P p ∧ ((∃ c, m₀.fileAt? (normalize p) = some c) ∨ U p)
  files : ∀ p, P p → m.fileAt? (normalize p) = o.fileAt? p

namespace Shadows

variable {P U : Bytes → Prop} {m₀ m : Memory} {o : Overlay Memory} {dir pattern p : Bytes}

theorem of_same (hm₀ : Sound m₀) (hrefused : m₀.refused = []) (h : Same m₀ m)
    (hwritten : o.written = []) (hremoved : o.removed = []) (hbase : o.base = m) :
    Shadows P U m₀ o m where
  sound := hm₀
  refused := hrefused
  same := by rwa [hbase]
  steady := .of_same hm₀ hrefused h
  removed := by simp [hremoved]
  written := by simp [Overlay.content?, hwritten]
  files p _ := by simp [Overlay.fileAt?, Overlay.content?, hwritten, hremoved, hbase]

theorem not_directory (h : Shadows P U m₀ o m) : ∀ p ∈ o.removed,
    o.base.lookup (normalize p) ≠ some .directory := by
  intro p hp hd
  obtain ⟨-, c, hc⟩ := h.removed p hp
  rw [h.same.lookup, fileAt?_eq_some.1 hc] at hd
  cases hd

theorem was_there (h : Shadows P U m₀ o m) (hp : P p) {c : Bytes}
    (hthere : m.fileAt? (normalize p) = some c) : (∃ c, m₀.fileAt? (normalize p) = some c) ∨ U p := by
  rw [h.files p hp, Overlay.fileAt?] at hthere
  split at hthere
  · cases hthere
  · cases hcontent : o.content? p with
    | some text => exact (h.written p text hcontent).2
    | none =>
      rw [hcontent, Option.none_or, h.same.fileAt?] at hthere
      exact .inl ⟨c, hthere⟩

/-! ## Looking at files -/

/-- A search below a directory does not give what was written without being there. -/
def Overlooks (U : Bytes → Prop) (dir pattern : Bytes) : Prop :=
  ∀ p, U p → Below dir p → ∀ ps, Glob.parse? pattern = some ps →
    Glob.matchesName ps (base (normalize p)) = false

/-- A search that gives the same in the overlay and in the store. -/
structure Searches (P U : Bytes → Prop) (m₀ : Memory) (dir pattern : Bytes) : Prop where
  dir_ne : dir ≠ []
  directory : m₀.lookup (normalize dir) = some .directory
  below : ∀ p, Below dir p → P p
  overlooks : Overlooks U dir pattern

theorem isDirectory (h : Shadows P U m₀ o m) (path : Bytes) :
    Meets (Shadows P U m₀) (Files.isDirectory path) (Files.isDirectory path) o m := by
  by_cases hne : path = []
  · subst hne
    exact .of_ends (Ends.pure_iff.2 ⟨rfl, rfl⟩) (Ends.pure_iff.2 ⟨rfl, rfl⟩) h
  have hends := Overlay.isDirectory_ends hne (isDirectory_ok (h.same.refused.trans h.refused) hne)
  have hsame : decide (m.lookup (normalize path) = some .directory) =
      decide (m₀.lookup (normalize path) = some .directory) :=
    decide_eq_decide.2 (h.steady.directories (normalize path))
  -- a path that was written or removed is no directory
  have hstays : m₀.lookup (normalize path) = some .directory →
      path ∉ o.removed ∧ o.content? path = none := by
    intro hd
    have hgone : path ∉ o.removed := fun hgone => h.not_directory path hgone (by rw [h.same.lookup, hd])
    refine ⟨hgone, ?_⟩
    by_contra hcontent
    obtain ⟨text, hcontent⟩ := Option.ne_none_iff_exists'.1 hcontent
    have hfile := h.files path (h.written path text hcontent).1
    rw [Overlay.fileAt?, if_neg hgone, hcontent, Option.some_or, fileAt?_eq_some,
      (h.steady.directories _).2 hd] at hfile
    cases hfile
  rw [h.same.lookup, ← Bool.decide_and] at hends
  refine .of_ends hends ?_ h
  rw [decide_eq_decide.2 (and_iff_right_of_imp hstays), ← hsame]
  exact isDirectory_ok h.steady.refused hne

theorem found (h : Shadows P U m₀ o m) (hsearch : Searches P U m₀ dir pattern) {found : List Bytes}
    {t : Memory} (hfind : Ends (Files.find dir pattern) m found t) :
    ∀ path ∈ found, Below dir path ∧ (∃ c, m₀.fileAt? (normalize path) = some c) ∧
      ∃ c, m.fileAt? (normalize path) = some c := by
  intro path hpath
  obtain ⟨-, ps, hps, hfound⟩ := Files.find_ends h.steady.sound hsearch.dir_ne hfind
  have hbelow := LawfulStore.below_of_find h.steady.sound hsearch.dir_ne hfind path hpath
  obtain ⟨names, ⟨hnames, ⟨c, hc⟩, above, n, rfl, hmatch⟩, rfl⟩ := (hfound path).1 hpath
  rw [← Files.normalize_names hsearch.dir_ne hnames] at hc
  refine ⟨hbelow, (h.was_there (hsearch.below _ hbelow) hc).resolve_right fun hnew => ?_, c, hc⟩
  have hpass := hsearch.overlooks _ hnew hbelow ps hps
  rw [Files.normalize_names hsearch.dir_ne hnames, Files.base_key_names hnames, hmatch] at hpass
  cases hpass

theorem find (h : Shadows P U m₀ o m) (hsearch : Searches P U m₀ dir pattern) :
    Meets (Shadows P U m₀) (Files.find dir pattern) (Files.find dir pattern) o m := by
  cases hps : Glob.parse? pattern with
  | none =>
    refine ⟨?_, ?_⟩ <;> simp only [Files.find, hps, ran_throw]
    exact h
  | some ps =>
    have hm := h.steady.sound
    have hbase : Sound o.base := h.sound.congr h.same.table
    have hsome : (Glob.parse? pattern).isSome := by rw [hps]; rfl
    obtain ⟨found, hfind⟩ := (Files.find_ok_iff hm hsearch.dir_ne).2
      ⟨hsome, h.steady.listable hsearch.directory⟩
    obtain ⟨found₀, hfind₀⟩ := (Files.find_ok_iff hbase hsearch.dir_ne).2
      ⟨hsome, (Steady.of_same h.sound h.refused h.same).listable hsearch.directory⟩
    obtain ⟨-, ps', hps', hmem⟩ := Files.find_ends hm hsearch.dir_ne hfind
    obtain rfl := Option.some.inj (hps.symm.trans hps')
    obtain ⟨-, ps', hps', hmem₀⟩ := Files.find_ends hbase hsearch.dir_ne hfind₀
    obtain rfl := Option.some.inj (hps.symm.trans hps')
    have hseen := h.found hsearch hfind
    have hshown := Overlay.find_ends hbase h.not_directory hsearch.dir_ne hfind₀
    have hperm : (found₀.filter (· ∉ o.removed)).Perm found := by
      rw [List.perm_ext_iff_of_nodup ((Files.nodup_find hbase hsearch.dir_ne hfind₀).filter _)
        (Files.nodup_find hm hsearch.dir_ne hfind)]
      intro path
      rw [List.mem_filter, hmem₀, hmem, decide_eq_true_eq]
      constructor
      · rintro ⟨⟨names, ⟨hnames, ⟨c, hc⟩, hlast⟩, rfl⟩, hkept⟩
        obtain ⟨above, n, hsplit, hmatch⟩ := hlast
        have hfile := h.files _ (hsearch.below _ ⟨names, by simp [hsplit], hnames, rfl⟩)
        rw [Overlay.fileAt?, if_neg hkept, Files.normalize_names hsearch.dir_ne hnames, hc] at hfile
        refine ⟨names, ⟨hnames, ?_, above, n, hsplit, hmatch⟩, rfl⟩
        rw [hfile]
        exact Option.isSome_iff_exists.1 (by simp)
      · intro hhit
        obtain ⟨hbelow, ⟨c, hc⟩, ⟨c', hc'⟩⟩ := hseen path ((hmem path).2 hhit)
        obtain ⟨names, ⟨hnames, -, hlast⟩, rfl⟩ := hhit
        have hfile := h.files _ (hsearch.below _ hbelow)
        rw [Overlay.fileAt?, hc'] at hfile
        split at hfile
        · cases hfile
        rename_i hkept
        rw [← h.same.fileAt?, Files.normalize_names hsearch.dir_ne hnames] at hc
        exact ⟨⟨names, ⟨hnames, ⟨c, hc⟩, hlast⟩, rfl⟩, hkept⟩
    have hsame : found₀.filter (· ∉ o.removed) = found :=
      (Bytes.sort_eq_of_perm (.refl _) ((Files.sorted_find hfind₀).filter _)).symm.trans
        (Bytes.sort_eq_of_perm hperm (Files.sorted_find hfind))
    exact .of_ends (hsame ▸ hshown) hfind h

/-- Where nothing was found at the beginning, the overlay finds nothing. -/
theorem find_nothing (h : Shadows P U m₀ o m) (hdir : dir ≠ [])
    (hfind : Ends (Files.find dir pattern) m₀ [] m₀) : Ends (Files.find dir pattern) o [] o := by
  have hbase : Sound o.base := h.sound.congr h.same.table
  obtain ⟨-, ps, hps, hmem⟩ := Files.find_ends h.sound hdir hfind
  obtain ⟨hpattern, hlist⟩ := (Files.find_ok_iff h.sound hdir).1 ⟨[], hfind⟩
  obtain ⟨found, hbelow⟩ := (Files.find_ok_iff hbase hdir).2
    ⟨hpattern, .of_same ⟨h.same.table.symm, h.same.refused.symm⟩ hlist⟩
  obtain ⟨-, ps', hps', hmem'⟩ := Files.find_ends hbase hdir hbelow
  obtain rfl := Option.some.inj (hps.symm.trans hps')
  obtain rfl : found = [] := by
    refine List.eq_nil_iff_forall_not_mem.2 fun path hpath => ?_
    obtain ⟨names, ⟨hnames, hfile, hlast⟩, rfl⟩ := (hmem' path).1 hpath
    rw [h.same.fileAt?] at hfile
    exact List.not_mem_nil ((hmem _).2 ⟨names, ⟨hnames, hfile, hlast⟩, rfl⟩)
  exact Overlay.find_ends hbase h.not_directory hdir hbelow

theorem findFirst? (h : Shadows P U m₀ o m) (hsearch : Searches P U m₀ dir pattern) :
    Meets (Shadows P U m₀) (Files.findFirst? dir pattern) (Files.findFirst? dir pattern) o m :=
  (h.find hsearch).bind fun _ _ _ _ _ h => (Agree.pure _).meets h

theorem found_first (h : Shadows P U m₀ o m) (hsearch : Searches P U m₀ dir pattern) {path : Bytes}
    {t : Memory} (hfirst : Ends (Files.findFirst? dir pattern) m (some path) t) :
    t = m ∧ Below dir path ∧ (∃ c, m₀.fileAt? (normalize path) = some c) ∧
      ∃ c, m.fileAt? (normalize path) = some c := by
  obtain ⟨found, t', hfind, hend⟩ := Ends.bind_iff.1 hfirst
  obtain ⟨hhead, rfl⟩ := Ends.pure_iff.1 hend
  exact ⟨(Files.find_ends h.steady.sound hsearch.dir_ne hfind).1,
    h.found hsearch hfind path (List.mem_of_head? hhead)⟩

/-! ## Changing files -/

theorem read (h : Shadows P U m₀ o m) (hp : P p) {c : Bytes}
    (hthere : m.fileAt? (normalize p) = some c) :
    Meets (Shadows P U m₀) (FileStore.read p) (FileStore.read p) o m := by
  have hreal := read_ok h.steady.refused hthere
  have hfile := h.files p hp
  rw [hthere, Overlay.fileAt?] at hfile
  split at hfile
  · cases hfile
  rename_i hgone
  have hshown : Ends (FileStore.read p) o c
      (if o.content? p = none then { o with base := { o.base with reads := o.base.reads + 1 } } else o) := by
    show Ends (Overlay.read p) o c _
    rw [Overlay.read, Ends.get_bind_iff, if_neg (by simpa using hgone)]
    cases hcontent : o.content? p with
    | some text =>
      rw [hcontent, Option.some_or] at hfile
      obtain rfl := Option.some.inj hfile
      simp
    | none =>
      rw [hcontent, Option.none_or] at hfile
      have hbase := read_ok (h.same.refused.trans h.refused) hfile.symm
      simp only [Ends, Overlay.ran_below, if_true]
      rw [show ran (FileStore.read p) o.base = _ from hbase]
  refine .of_ends hshown hreal ?_
  have hsteady := h.steady.count (m.reads + 1)
  split
  · exact ⟨h.sound, h.refused, ⟨h.same.table, h.same.refused⟩, hsteady, h.removed, h.written, h.files⟩
  · exact ⟨h.sound, h.refused, h.same, hsteady, h.removed, h.written, h.files⟩

theorem write (h : Shadows P U m₀ o m) (hapart : Apart P) (hp : P p) (c : Bytes)
    (hparent : m₀.lookup (directory (normalize p)) = some .directory)
    (hplace : m₀.lookup (normalize p) ≠ some .directory)
    (hlisted : (∃ c, m₀.fileAt? (normalize p) = some c) ∨ U p) :
    Meets (Shadows P U m₀) (FileStore.write p c) (FileStore.write p c) o m := by
  obtain ⟨m', hreal, hsteady⟩ := h.steady.write c hparent hplace
  have hfiles := (write_ends h.steady.sound hreal).2.2
  have hshown : Ends (FileStore.write p c) o () (o.recordWrite p c) := rfl
  refine .of_ends hshown hreal ⟨h.sound, h.refused, h.same, hsteady, fun q hq => ?_, fun q text hq => ?_,
    fun q hq => ?_⟩
  · exact h.removed q (List.mem_of_mem_filter hq)
  · rw [Overlay.content?_recordWrite] at hq
    split at hq
    · rename_i heq
      rw [heq]
      exact ⟨hp, hlisted⟩
    · exact h.written q text hq
  · rw [hfiles, Overlay.fileAt?_recordWrite, h.files q hq]
    by_cases heq : q = p
    · rw [heq, if_pos rfl, if_pos rfl]
    · rw [if_neg heq, if_neg fun hsame => heq (hapart hq hp hsame)]

theorem rewrite (h : Shadows P U m₀ o m) (hapart : Apart P) (hp : P p) (c : Bytes)
    (hwas : ∃ c, m₀.fileAt? (normalize p) = some c) :
    Meets (Shadows P U m₀) (FileStore.write p c) (FileStore.write p c) o m := by
  obtain ⟨text, htext⟩ := hwas
  refine h.write hapart hp c (h.sound.parent_of_file htext) ?_ (.inl ⟨text, htext⟩)
  rw [fileAt?_eq_some.1 htext]
  nofun

theorem remove (h : Shadows P U m₀ o m) (hapart : Apart P) (hp : P p)
    (hwas : ∃ c, m₀.fileAt? (normalize p) = some c) (hthere : ∃ c, m.fileAt? (normalize p) = some c) :
    Meets (Shadows P U m₀) (FileStore.remove p) (FileStore.remove p) o m := by
  obtain ⟨c, hc⟩ := hthere
  obtain ⟨m', hreal, hsteady⟩ := h.steady.remove hc
  have hfiles := (remove_ends h.steady.sound hreal).2.2
  have hshown : Ends (FileStore.remove p) o () (o.recordRemove p) := rfl
  refine .of_ends hshown hreal ⟨h.sound, h.refused, h.same, hsteady, fun q hq => ?_, fun q text hq => ?_,
    fun q hq => ?_⟩
  · rcases List.mem_cons.1 hq with rfl | hq
    · exact ⟨hp, hwas⟩
    · exact h.removed q hq
  · rw [Overlay.content?_recordRemove] at hq
    split at hq
    · cases hq
    · exact h.written q text hq
  · rw [hfiles, Overlay.fileAt?_recordRemove, h.files q hq]
    by_cases heq : q = p
    · rw [heq, if_pos rfl, if_pos rfl]
    · rw [if_neg heq, if_neg fun hsame => heq (hapart hq hp hsame)]

end Shadows

end Flowsmith
