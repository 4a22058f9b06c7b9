import Flowsmith.Proofs.Project.Modified

/-!
# A saved project lists the same

Whatever was done to a project since it was loaded, its file gives a project with the same items in the
same order. The file begins with a byte order mark when the one it was loaded from did, and also when the
document begins with a text that begins with that character: a text is written as it is.

* `Xml.levels_bare` : the elements do not depend on the other nodes;
* `Xml.firstShown?` : the node that a saved document begins with;
* `Xml.mark_prefix_save_iff` : when a saved document begins with the mark;
* `Project.Kept`, `Kept.run` : what actions leave of a project that was loaded;
* `Project.saved_items_same` : what the file of a project gives;
* `Project.marked_anew` : a file that gets a mark.
-/

namespace Flowsmith

open Xml

namespace Xml

variable {ns ms : List Node} {n : Node} {s k : Bytes}

/-- The elements of a document, level by level, do not depend on its other nodes. -/
theorem levels_bare : levels (bare ns) = levels ns := by
  induction ns using forest_induction with
  | nil => rfl
  | element name attrs children ns ihc ihn =>
    rw [bare_element, levels, levels, Node.levels, Node.levels, ihc, ihn]
  | leaf n ns hn ihn => rw [bare_leaf hn, ihn, levels, n.levels_of_isLeaf hn, joinLevels]

theorem breadthFirst_of_bare (h : bare ns = bare ms) : breadthFirst ns = breadthFirst ms := by
  rw [breadthFirst, breadthFirst, ← levels_bare, h, levels_bare]

/-! ## What a document begins with -/

def firstShown? (ns : List Node) : Option Node := ns.find? fun n => !n.isBlankText

theorem firstShown?_blank (h : n.isBlankText = true) : firstShown? (n :: ns) = firstShown? ns := by
  rw [firstShown?, List.find?_cons_of_neg (by simp [h])]
  rfl

theorem firstShown?_shown (h : n.isBlankText = false) : firstShown? (n :: ns) = some n :=
  List.find?_cons_of_pos (by simp [h])

theorem Node.isBlankText_layout (n : Node) (depth : Nat) :
    (n.layout depth).isBlankText = n.isBlankText := by
  cases n <;> rfl

/-- The layout of a document begins with its first node that is shown. -/
theorem layout_eq : layout ns = [] ∧ firstShown? ns = none ∨
    ∃ n rest, firstShown? ns = some n ∧ layout ns = n.layout 1 :: rest := by
  induction ns with
  | nil => exact .inl ⟨rfl, rfl⟩
  | cons n ns ih =>
    rw [layout, layoutAll]
    cases hblank : n.isBlankText with
    | true =>
      rw [firstShown?_blank hblank]
      exact ih
    | false =>
      simp only [Bool.false_eq_true, if_false, Bool.false_or, Nat.lt_irrefl, decide_false,
        Bool.and_false, List.nil_append, List.cons_append, Nat.zero_add]
      exact .inr ⟨n, _, firstShown?_shown hblank, rfl⟩

theorem firstShown?_layout : firstShown? (layout ns) = (firstShown? ns).map (·.layout 1) := by
  rcases @layout_eq ns with ⟨hlayout, hnone⟩ | ⟨n, rest, hfirst, hlayout⟩
  · rw [hlayout, hnone]
    rfl
  · have hshown : n.isBlankText = false := by simpa using List.find?_some hfirst
    rw [hlayout, hfirst, firstShown?_shown ((n.isBlankText_layout 1).trans hshown)]
    rfl

/-! ## The mark -/

/-- What is written for a character that is not written as it is. -/
def substitutes : List Bytes :=
  [("&amp;" : Bytes), ("&lt;" : Bytes), ("&gt;" : Bytes), ("&apos;" : Bytes), ("&quot;" : Bytes),
    [0xEF, 0xBF, 0xBD]]

theorem escapeRune_cases (n : Nat) (raw : Bytes) : escapeRune n raw ∈ substitutes ∨
    escapeRune n raw = raw ∧ (n = Utf8.replacement → raw.length ≠ 1) := by
  unfold escapeRune substitutes
  split_ifs with h₁ h₂ h₃ h₄ h₅ h₆
  · simp
  · simp
  · simp
  · simp
  · simp
  · simp
  · refine .inr ⟨rfl, fun hn hlen => h₆ ?_⟩
    simp [hn, hlen]

/-- A text that is not empty is written with the mark in front exactly when it has it in front. -/
theorem mark_prefix_escape_iff (hne : s ≠ []) :
    Project.byteOrderMark <+: escape s ++ k ↔ Project.byteOrderMark <+: s := by
  have hmark := Project.encodes_byteOrderMark
  obtain ⟨c, rest, rfl⟩ := List.exists_cons_of_ne_nil hne
  obtain ⟨⟨n, raw⟩, w, hrune, hs, hrunes, hdecode⟩ := Utf8.runes_cons c rest
  have hescape : escape (c :: rest) = escapeRune n raw ++ escape w := by
    rw [escape, hrunes, List.flatMap_cons, escape]
  rw [hescape, hs, List.append_assoc]
  constructor
  · intro h
    have hraw : escapeRune n raw = raw ∧ Utf8.Encodes raw n := by
      rcases escapeRune_cases n raw with hmem | ⟨hsame, hshort⟩
      · -- no substitute begins so
        have hall : ∀ w ∈ substitutes, w.take 3 ≠ Project.byteOrderMark ∧ 3 ≤ w.length := by
          decide
        obtain ⟨htake, hlen⟩ := hall _ hmem
        obtain ⟨t, ht⟩ := h
        have htaken := congrArg (List.take 3) ht
        rw [List.take_append_of_le_length hlen] at htaken
        exact absurd htaken.symm htake
      · refine ⟨hsame, hrune.resolve_right ?_⟩
        rintro ⟨hn, c, hc, -⟩
        exact hshort hn (by rw [show raw = [c] from hc]; rfl)
    rw [hraw.1] at h
    obtain ⟨t, ht⟩ := h
    have hsame := hraw.2.decode? (escape w ++ k)
    rw [← ht, hmark.decode?] at hsame
    obtain ⟨-, hlen⟩ := Prod.mk.inj (Option.some.inj hsame)
    obtain ⟨hraw, -⟩ := List.append_inj ht hlen
    rw [← hraw]
    exact List.prefix_append _ _
  · rintro ⟨t, ht⟩
    have hread := hmark.decode? t
    rw [ht, ← hs] at hread
    have hencodes : Utf8.Encodes raw n := hdecode.resolve_right fun hnone => by
      rw [hnone] at hread
      cases hread
    rw [hs, hencodes.decode?] at hread
    obtain ⟨rfl, hlen⟩ := Prod.mk.inj (Option.some.inj hread)
    obtain ⟨rfl, -⟩ := List.append_inj ht hlen.symm
    exact List.prefix_append _ _

/-- A saved document begins with the mark exactly when the first node that is shown is a text that
does. -/
theorem mark_prefix_save_iff (h : Formed Element.Named ns) :
    Project.byteOrderMark <+: save ns ↔
      ∃ s, firstShown? ns = some (.text s) ∧ Project.byteOrderMark <+: s := by
  rw [save]
  rcases @layout_eq ns with ⟨hlayout, hnone⟩ | ⟨n, rest, hfirst, hlayout⟩
  · rw [hlayout, hnone]
    simp [renderAll, Project.byteOrderMark]
  · have hshown : n.isBlankText = false := by simpa using List.find?_some hfirst
    have hn : Formed Element.Named [n] :=
      formed_iff_forall.1 h n (List.mem_of_find?_eq_some hfirst)
    have hmarkup : ∀ {w : Bytes}, ¬ Project.byteOrderMark <+: '<'.toUInt8 :: w := fun hprefix =>
      absurd (List.cons_prefix_cons.1 hprefix).1 (by decide)
    rw [hlayout, hfirst, renderAll]
    cases n with
    | text s =>
      have hne : s ≠ [] := by
        rintro rfl
        cases hshown
      simpa [Node.layout, Node.render] using mark_prefix_escape_iff hne
    | element name attrs children =>
      refine iff_of_false (fun hprefix => ?_) (by simp)
      rw [Node.layout] at hprefix
      by_cases hempty : layoutAll 1 false children = []
      · rw [hempty, render_element_nil] at hprefix
        exact hmarkup hprefix
      · rw [render_element hempty] at hprefix
        exact hmarkup hprefix
    | _ =>
      refine iff_of_false (fun hprefix => ?_) (by simp)
      obtain ⟨r, hr, -⟩ := (hn.leaves _ List.mem_cons_self).markup rfl (renderAll rest)
      exact hmarkup (hr ▸ hprefix)

/-! ## Edits -/

/-- A text in front stays there when elements other than the root are removed. -/
theorem firstShown?_pruneAll {p : Element → Bool} {r : Name → Bool} {root : Name}
    (hroot : rootName? ns = some root) (hp : ∀ e, p e = true → r e.name = true) (hr : r root = false) :
    firstShown? (pruneAll p ns) = some (.text s) ↔ firstShown? ns = some (.text s) := by
  induction ns using forest_induction with
  | nil => rfl
  | element name attrs children ns _ _ =>
    obtain rfl : name = root := Option.some.inj hroot
    rw [pruneAll_element, if_neg, firstShown?_shown rfl, firstShown?_shown rfl]
    · simp
    · intro hmatch
      rw [hp _ hmatch] at hr
      cases hr
  | leaf n ns hn ihn =>
    rw [rootName?_leaf hn] at hroot
    rw [pruneAll_leaf hn]
    cases hblank : n.isBlankText with
    | true => rw [firstShown?_blank hblank, firstShown?_blank hblank, ihn hroot]
    | false => rw [firstShown?_shown hblank, firstShown?_shown hblank]

theorem Appended.firstShown?_iff {q : Name → Bool} {child : Node} (h : Appended q child ns ms) :
    firstShown? ms = some (.text s) ↔ firstShown? ns = some (.text s) := by
  induction h with
  | here attrs children ns hq => rw [firstShown?_shown rfl, firstShown?_shown rfl]; simp
  | inside name attrs ns h ih => rw [firstShown?_shown rfl, firstShown?_shown rfl]; simp
  | after n h ih =>
    cases hblank : n.isBlankText with
    | true => rw [firstShown?_blank hblank, firstShown?_blank hblank, ih]
    | false => rw [firstShown?_shown hblank, firstShown?_shown hblank]

end Xml

namespace Project

variable {σ : Type} [FileStore σ] {p p₀ : Project} {tag key file path data : Bytes}
  {wanted : Bytes → Bool}

/-- What actions leave of a project that was loaded. -/
structure Kept (p₀ p : Project) : Prop where
  path : p.path = p₀.path
  marked : p.marked = p₀.marked
  root : ∃ name, rootName? p.nodes = some name ∧ isTagged removable name = false
  legal : Legal p.nodes
  front : ∀ s, firstShown? p.nodes = some (.text s) ↔ firstShown? p₀.nodes = some (.text s)

namespace Kept

theorem of_ofBytes (h : ofBytes path data = .ok p₀)
    (hroot : ∀ name, rootName? p₀.nodes = some name → isTagged removable name = false) : Kept p₀ p₀ := by
  obtain ⟨-, hlegal, name, hname⟩ := Project.of_ofBytes h
  exact ⟨rfl, rfl, ⟨name, hname, hroot name hname⟩, hlegal, fun _ => Iff.rfl⟩

theorem removeWhere (h : Kept p₀ p) (htag : tag ∈ removable) :
    Kept p₀ (p.removeWhere tag key wanted).2 := by
  obtain ⟨name, hname, hroot⟩ := h.root
  have htagged := fun e => @isTagged_of_isTarget tag key wanted htag e
  exact ⟨h.path, h.marked, ⟨name, rootName?_pruneAll hname htagged hroot, hroot⟩,
    ⟨fun e he => h.legal.elements e (mem_pruneAll he).1, fun n hn => h.legal.leaves n (leaves_pruneAll hn)⟩,
    fun s => (firstShown?_pruneAll hname htagged hroot).trans (h.front s)⟩

theorem addCompile (h : Kept p₀ p) (hfile : isLegal file = true) : Kept p₀ (p.addCompile file) := by
  have hmarked : (p.addCompile file).marked = p.marked := by
    unfold Project.addCompile
    split <;> rfl
  rcases @addCompile_cases p file h.root with ⟨hsame, -⟩ | ⟨child, q, hchild, happend, -, -⟩
  · rwa [hsame]
  · have hlegal := legal_compileItem hchild hfile
    refine ⟨(addCompile_path p file).trans h.path, hmarked.trans h.marked,
      Rooted.addCompile h.root, ⟨fun e he => ?_, fun n hn => ?_⟩,
      fun s => happend.firstShown?_iff.trans (h.front s)⟩
    · exact (happend.mem_iff.1 he).elim (h.legal.elements e) (hlegal.elements e)
    · exact (happend.mem_leaves_iff.1 hn).elim (h.legal.leaves n) (hlegal.leaves n)

theorem laidOut (h : Kept p₀ p) : Kept p₀ p.laidOut := by
  refine ⟨h.path, h.marked, ?_, formed_layoutAll h.legal 0 false, fun s => ?_⟩
  · rw [← rootName?_bare, bare_laidOut, rootName?_bare]
    exact h.root
  · rw [← h.front]
    show firstShown? (layout p.nodes) = _ ↔ _
    rw [firstShown?_layout]
    cases firstShown? p.nodes with
    | none => rfl
    | some n => cases n <;> simp [Node.layout]

theorem after {x : Opened σ} {a : Action σ} (h : Kept p₀ x.project)
    (ha : ∀ file, a = .addCompile file → isLegal file = true) : Kept p₀ (x.after a).project := by
  cases a with
  | removeItems file => exact (h.removeWhere (by decide)).removeWhere (by decide)
  | removeImport targets => exact h.removeWhere (by decide)
  | removeReferences names => exact h.removeWhere (by decide)
  | addCompile file => exact h.addCompile (ha file rfl)
  | items tag => exact h
  | save =>
    by_cases hsaves : x.Saves
    · obtain ⟨q, t, hsave⟩ := hsaves
      obtain ⟨-, rfl⟩ := save_iff.1 hsave
      show Kept p₀ x.saved.project
      unfold Opened.saved
      rw [show ran x.project.save x.files = _ from hsave]
      obtain ⟨hpath, hmarked, hroot, hlegal, hfront⟩ := h.laidOut
      exact ⟨hpath, hmarked, hroot, hlegal, hfront⟩
    · show Kept p₀ x.saved.project
      rw [Opened.saved_of_not_saves hsaves]
      exact h.laidOut
  | files change => exact h

theorem run {x : Opened σ} {acts : List (Action σ)} (h : Kept p₀ x.project)
    (hlegal : ∀ file, .addCompile file ∈ acts → isLegal file = true) :
    Kept p₀ (x.run acts).project := by
  induction acts generalizing x with
  | nil => exact h
  | cons a acts ih =>
    refine ih (h.after fun file ha => hlegal file (ha ▸ List.mem_cons_self)) fun file hfile => ?_
    exact hlegal file (List.mem_cons_of_mem _ hfile)

end Kept

theorem marked_of_ofBytes (h : ofBytes path data = .ok p) :
    p.marked = byteOrderMark.isPrefixOf data := by
  rw [ofBytes] at h
  split at h
  · cases h
  · split at h
    · cases h
    · cases h
      rfl

/-- **A project that is saved and read back lists the same items**, whatever was done to it since it was
loaded. It can be saved when its file can be written, and the file begins with a byte order mark exactly
when the file it was loaded from did, or when the first node that is not blank is a text that begins
with one. -/
theorem saved_items_same (hload : ofBytes path data = .ok p₀)
    (hroot : ∀ name, rootName? p₀.nodes = some name → isTagged removable name = false)
    (files : σ) (acts : List (Action σ)) (hlegal : ∀ file, .addCompile file ∈ acts → isLegal file = true)
    (hp : p = (Opened.run ⟨p₀, files⟩ acts).project)
    (hvalues : ∀ e ∈ breadthFirst p.nodes, ∀ a ∈ e.attrs, 0x0D ∉ a.value) :
    (∀ t t', Ends (FileStore.write path p.toBytes) t () t' → ∃ q : Project, Ends p.save t q (t' : σ)) ∧
    (byteOrderMark <+: p.toBytes ↔ byteOrderMark <+: data ∨
      ∃ s, firstShown? p₀.nodes = some (.text s) ∧ byteOrderMark <+: s) ∧
    ∃ p', ofBytes path p.toBytes = .ok p' ∧ ∀ tag, p'.items tag = p.items tag := by
  have hkept : Kept p₀ p := hp ▸ (Kept.of_ofBytes hload hroot).run hlegal
  have hpath : p.path = path := hkept.path.trans (ofBytes_path hload)
  have hwritable : Writable p.nodes := ⟨hkept.legal, hvalues⟩
  refine ⟨fun t t' hwrite => ⟨_, save_iff.2 ⟨hpath ▸ hwrite, rfl⟩⟩, ?_, ?_⟩
  · have hloaded : p.marked = byteOrderMark.isPrefixOf data := hkept.marked.trans (marked_of_ofBytes hload)
    rw [toBytes, hloaded]
    by_cases hdata : byteOrderMark <+: data
    · rw [if_pos (List.isPrefixOf_iff_prefix.2 hdata)]
      exact iff_of_true (List.prefix_append _ _) (.inl hdata)
    · rw [if_neg fun hprefix => hdata (List.isPrefixOf_iff_prefix.1 hprefix), List.nil_append,
        mark_prefix_save_iff hwritable.formed]
      simp only [hkept.front, hdata, false_or]
  · obtain ⟨name, hname, -⟩ := hkept.root
    obtain ⟨p', hread, -, -, hbare⟩ := ofBytes_toBytes hwritable.formed hname
    rw [hpath] at hread
    rw [hwritable.settled_eq] at hbare
    refine ⟨p', hread, fun tag => ?_⟩
    rw [items, items, elementsNamed, elementsNamed, breadthFirst_of_bare hbare]

/-- A project with a source file, and an edit that puts another one in its place. -/
def listing : Project where
  path := "/p.csproj"
  nodes := [.element ⟨[], "P"⟩ [] [.element ⟨[], "Compile"⟩ [⟨⟨[], "Include"⟩, "A.cs"⟩] []]]

/-- A source file is put in the place of another one. -/
def replaced : List (Action Memory) := [.removeItems "A.cs", .addCompile "B.cs"]

set_option maxRecDepth 20000 in
theorem saved_items_same_replaced :
    ofBytes "/p.csproj" "<P><Compile Include='A.cs'/></P>" = .ok listing ∧
    ∃ p p' : Project, p = (Opened.run ⟨listing, Memory.empty⟩ replaced).project ∧
      p.items "Compile" = [("B.cs" : Bytes)] ∧ ¬ byteOrderMark <+: p.toBytes ∧
      ofBytes "/p.csproj" p.toBytes = .ok p' ∧ p'.items "Compile" = [("B.cs" : Bytes)] := by
  have hload : ofBytes "/p.csproj" "<P><Compile Include='A.cs'/></P>" = .ok listing := by
    rw [listing]
    repeat rw [Bytes.ofString_ofList]
    decide +kernel
  have hnodes : breadthFirst (Opened.run ⟨listing, Memory.empty⟩ replaced).project.nodes =
      [⟨⟨[], "P"⟩, []⟩, ⟨⟨[], "ItemGroup"⟩, []⟩,
        ⟨⟨[], "Compile"⟩, [⟨⟨[], "Include"⟩, "B.cs"⟩]⟩] := by decide
  have hitems : (Opened.run ⟨listing, Memory.empty⟩ replaced).project.items "Compile" =
      [("B.cs" : Bytes)] := by
    rw [items, elementsNamed, hnodes]
    decide
  obtain ⟨-, hmark, p', hread, hsame⟩ := saved_items_same hload
    (fun name hname => by rw [← Option.some.inj hname]; decide) Memory.empty replaced
    (fun file hfile => by
      simp only [replaced, List.mem_cons, List.not_mem_nil, or_false, reduceCtorEq, false_or,
        Action.addCompile.injEq] at hfile
      rw [hfile]
      decide +kernel)
    rfl (by rw [hnodes]; decide)
  refine ⟨hload, _, p', rfl, hitems, fun hprefix => ?_, hread, (hsame "Compile").trans hitems⟩
  rcases hmark.1 hprefix with hdata | ⟨s, hs, -⟩
  · exact absurd hdata (by decide)
  · cases hs

set_option maxRecDepth 20000 in
/-- A document that begins with a text that is the character of the mark is loaded from a file without a
mark, and saved with one. -/
theorem marked_anew : ∃ p₀, ofBytes "/p.csproj" "&#xFEFF;<P/>" = .ok p₀ ∧
    rootName? p₀.nodes = some ⟨[], "P"⟩ ∧ ¬ byteOrderMark <+: ("&#xFEFF;<P/>" : Bytes) ∧
    byteOrderMark <+: p₀.toBytes := by
  repeat rw [Bytes.ofString_ofList]
  decide +kernel

end Project

end Flowsmith
