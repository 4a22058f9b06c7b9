import Flowsmith.Project.Items
import Flowsmith.Proofs.Xml.Saved

/-!
# What a project lists

A migration adds source files to a project, removes the items of other files, and removes references
and imports. This says what a project lists after such edits, and that it lists the same when it is
read back from its file.

* `Project.Lists`, `Project.Omits` : an element with a tag and a value, and a file without items;
* `Project.Rooted`, `Project.Fit` : a project that keeps its root, and one in which what is removed holds
  nothing that is added;
* `lists_addCompile`, `lists_of_removeWhere`, `lists_removeWhere` : what is listed after an edit;
* `nodes_removeWhere`, `nodes_addCompile` : a project that does not count as edited is as it was;
* `ofBytes_toBytes`, `exists_read_back` : a project that is saved is read back.
-/

namespace Flowsmith

open Xml

namespace Project

variable {p : Project} {tag key v file : Bytes} {wanted : Bytes → Bool}

/-- A project has an element with a tag and a value of an attribute. -/
def Lists (p : Project) (tag key value : Bytes) : Prop :=
  ∃ e ∈ elementsNamed tag p.nodes, e.attr? key = some value

theorem lists_iff : p.Lists tag key v ↔
    ∃ e ∈ breadthFirst p.nodes, e.name.isMeantBy (.ofPath tag) = true ∧ e.attr? key = some v := by
  simp only [Lists, elementsNamed, List.mem_filter, and_assoc]

theorem lists_congr {p p' : Project} (h : p.nodes = p'.nodes) :
    p.Lists tag key v ↔ p'.Lists tag key v := by
  rw [Lists, Lists, h]

/-- A project has no item for a source or content file. -/
def Omits (p : Project) (file : Bytes) : Prop :=
  ∀ tag, tag = ("Compile" : Bytes) ∨ tag = ("Content" : Bytes) → ¬ p.Lists tag "Include" file

/-- The tags of the elements that a migration removes. -/
def removable : List Bytes := ["Compile", "Content", "Reference", "Import"]

/-- The tags of the elements that a migration adds to, and that it adds. -/
def grown : List Bytes := ["ItemGroup", "Compile"]

def isTagged (tags : List Bytes) (n : Name) : Bool := tags.contains n.tag

/-- The root is none of the elements that a migration removes. -/
def Rooted (p : Project) : Prop :=
  ∃ name, rootName? p.nodes = some name ∧ isTagged removable name = false

/-- A project file that can be written, and in which no element that may be removed is the root or
holds an element that may be added. -/
structure Fit (p : Project) : Prop where
  root : ∃ name, rootName? p.nodes = some name ∧ isTagged removable name = false
  flat : areFlat (isTagged removable) (isTagged grown) p.nodes = true
  writable : Writable p.nodes

theorem isMeantBy_ofPath {n : Name} (h : 0x3A ∉ tag) : n.isMeantBy (.ofPath tag) = (tag == n.tag) := by
  rw [Name.ofPath, if_neg (by simpa using h)]
  rfl

theorem no_colon_of_removable (h : tag ∈ removable) : 0x3A ∉ tag := by
  revert tag
  decide

/-! ## Removing elements -/

theorem isTagged_of_isTarget (htag : tag ∈ removable) {e : Element}
    (h : isTarget tag key wanted e = true) : isTagged removable e.name = true := by
  rw [isTarget, Bool.and_eq_true, isMeantBy_ofPath (no_colon_of_removable htag), beq_iff_eq] at h
  rw [isTagged, ← h.1]
  simpa using htag

theorem lists_of_removeWhere {t k : Bytes} (h : (p.removeWhere tag key wanted).2.Lists t k v) :
    p.Lists t k v := by
  obtain ⟨e, he, hname⟩ := lists_iff.1 h
  exact lists_iff.2 ⟨e, (mem_pruneAll he).1, hname⟩

theorem not_lists_removeWhere (h : wanted v = true) :
    ¬ (p.removeWhere tag key wanted).2.Lists tag key v := by
  intro hlists
  obtain ⟨e, he, hname, hvalue⟩ := lists_iff.1 hlists
  have hkept := (mem_pruneAll he).2
  simp [isTarget, hname, hvalue, h] at hkept

/-- A source file stays listed when other elements are removed. -/
theorem lists_removeWhere (hfit : p.Fit) (htag : tag ∈ removable)
    (hother : tag = ("Compile" : Bytes) → key = ("Include" : Bytes) ∧ wanted v = false)
    (h : p.Lists "Compile" "Include" v) :
    (p.removeWhere tag key wanted).2.Lists "Compile" "Include" v := by
  obtain ⟨e, he, hname, hvalue⟩ := lists_iff.1 h
  have htagged : ("Compile" : Bytes) = e.name.tag := by
    rwa [isMeantBy_ofPath (by decide), beq_iff_eq] at hname
  refine lists_iff.2 ⟨e, mem_pruneAll_of_flat hfit.flat (fun _ => isTagged_of_isTarget htag) he ?_ ?_,
    hname, hvalue⟩
  · rw [isTagged, ← htagged]
    decide
  · rw [isTarget, isMeantBy_ofPath (no_colon_of_removable htag), ← htagged]
    by_cases hc : tag = ("Compile" : Bytes)
    · obtain ⟨rfl, hwanted⟩ := hother hc
      simp [hvalue, hwanted]
    · rw [beq_eq_false_iff_ne.2 hc]
      rfl

theorem Rooted.removeWhere (h : p.Rooted) (htag : tag ∈ removable) :
    (p.removeWhere tag key wanted).2.Rooted := by
  obtain ⟨name, hname, hroot⟩ := h
  exact ⟨name, rootName?_pruneAll hname (fun _ => isTagged_of_isTarget htag) hroot, hroot⟩

theorem Fit.removeWhere (h : p.Fit) (htag : tag ∈ removable) : (p.removeWhere tag key wanted).2.Fit := by
  refine ⟨Rooted.removeWhere h.root htag, areFlat_pruneAll h.flat,
    ⟨⟨fun e he => ?_, fun n hn => ?_⟩, fun e he => ?_⟩⟩
  · exact h.writable.legal.elements e (mem_pruneAll he).1
  · exact h.writable.legal.leaves n (leaves_pruneAll hn)
  · exact h.writable.values e (mem_pruneAll he).1

/-- A project that does not count as edited after a removal is as it was. -/
theorem nodes_removeWhere (h : (p.removeWhere tag key wanted).2.modified = false) :
    p.modified = false ∧ (p.removeWhere tag key wanted).2.nodes = p.nodes := by
  have hboth : p.modified = false ∧
      ((breadthFirst p.nodes).filter (isTarget tag key wanted)).length = 0 := by
    simpa [Project.removeWhere] using h
  refine ⟨hboth.1, pruneAll_eq_self fun e he => ?_⟩
  have hnone := List.filter_eq_nil_iff.1 (List.length_eq_zero_iff.1 hboth.2) e he
  simpa using hnone

/-! ## Adding a source file -/

theorem written_plain : Name.Written ⟨[], "Compile"⟩ ∧ Name.Written ⟨[], "ItemGroup"⟩ ∧
    Name.Written ⟨[], "Include"⟩ := by
  refine ⟨⟨⟨?_, ?_⟩, ?_⟩, ⟨⟨?_, ?_⟩, ?_⟩, ⟨⟨?_, ?_⟩, ?_⟩⟩ <;> decide +kernel

/-- The elements of the item of a source file, alone or in a group of its own. -/
theorem mem_compileItem {child : Node} {e : Element}
    (hchild : child = compileItem file ∨ child = plainElement "ItemGroup" [] [compileItem file]) :
    e ∈ breadthFirst [child] → e = ⟨⟨[], "Compile"⟩, [⟨⟨[], "Include"⟩, file⟩]⟩ ∨
      e = ⟨⟨[], "ItemGroup"⟩, []⟩ := by
  intro he
  rcases hchild with rfl | rfl
  · exact .inl (by simpa [plainElement, compileItem] using he)
  · exact Or.symm (by simpa [plainElement, compileItem] using he)

theorem legal_compileItem {child : Node}
    (hchild : child = compileItem file ∨ child = plainElement "ItemGroup" [] [compileItem file])
    (hfile : isLegal file = true) : Legal [child] := by
  obtain ⟨hcompile, hgroup, hinclude⟩ := written_plain
  have hitem : Legal [compileItem file] :=
    formed_element.2 ⟨⟨hcompile, by simpa using ⟨hinclude, hfile⟩, by simp⟩, formed_nil⟩
  rcases hchild with rfl | rfl
  · exact hitem
  · exact formed_element.2 ⟨⟨hgroup, by simp, by simp⟩, hitem⟩

theorem areFlat_compileItem {child : Node}
    (hchild : child = compileItem file ∨ child = plainElement "ItemGroup" [] [compileItem file]) :
    areFlat (isTagged removable) (isTagged grown) [child] = true := by
  have hitem : areFlat (isTagged removable) (isTagged grown) [compileItem file] = true :=
    areFlat_element.2 ⟨fun _ _ h => (nomatch h), rfl, rfl⟩
  rcases hchild with rfl | rfl
  · exact hitem
  · exact areFlat_element.2 ⟨fun h => absurd h (by decide), hitem, rfl⟩

/-- Adding a source file that is not listed adds its item, in the first group or in one of its own. -/
theorem addCompile_cases (hroot : ∃ name, rootName? p.nodes = some name ∧ isTagged removable name = false) :
    p.addCompile file = p ∧ file ∈ p.items "Compile" ∨
      ∃ child q, (child = compileItem file ∨ child = plainElement "ItemGroup" [] [compileItem file]) ∧
        Appended q child p.nodes (p.addCompile file).nodes ∧ (p.addCompile file).modified = true ∧
        (areFlat (isTagged removable) (isTagged grown) p.nodes = true →
          areFlat (isTagged removable) (isTagged grown) (p.addCompile file).nodes = true) := by
  by_cases hlisted : file ∈ p.items "Compile"
  · exact .inl ⟨by rw [addCompile, if_pos (by simpa using hlisted)], hlisted⟩
  · right
    rw [addCompile, if_neg (by simpa using hlisted)]
    cases happend : appendTo? "ItemGroup" (compileItem file) p.nodes with
    | some nodes =>
      have h := appended_appendTo? happend
      refine ⟨compileItem file, _, .inl rfl, h, rfl, fun hflat => ?_⟩
      refine h.areFlat hflat (areFlat_compileItem (.inl rfl)) fun n hn => ?_
      rw [isMeantBy_ofPath (by decide), beq_iff_eq] at hn
      rw [isTagged, isTagged, ← hn]
      decide
    | none =>
      obtain ⟨name, hname, hr⟩ := hroot
      exact ⟨_, _, .inr rfl, appended_appendToRoot hname, rfl, fun hflat =>
        areFlat_appendToRoot hname hr hflat (areFlat_compileItem (.inr rfl))⟩

theorem Rooted.addCompile (h : p.Rooted) : (p.addCompile file).Rooted := by
  rcases @addCompile_cases p file h with ⟨hsame, -⟩ | ⟨child, q, -, happend, -, -⟩
  · rwa [hsame]
  · rw [Rooted, happend.rootName?_eq]
    exact h

theorem addCompile_path (p : Project) (file : Bytes) : (p.addCompile file).path = p.path := by
  unfold addCompile
  split <;> rfl

theorem Fit.addCompile (h : p.Fit) (hfile : isLegal file = true) (hret : 0x0D ∉ file) :
    (p.addCompile file).Fit := by
  rcases @addCompile_cases p file h.root with ⟨hsame, -⟩ | ⟨child, q, hchild, happend, -, hflat⟩
  · rwa [hsame]
  · have hlegal := legal_compileItem hchild hfile
    refine ⟨Rooted.addCompile h.root, hflat h.flat, ⟨⟨fun e he => ?_, fun n hn => ?_⟩, fun e he => ?_⟩⟩
    · exact (happend.mem_iff.1 he).elim (h.writable.legal.elements e) (hlegal.elements e)
    · exact (happend.mem_leaves_iff.1 hn).elim (h.writable.legal.leaves n) (hlegal.leaves n)
    · rcases happend.mem_iff.1 he with he | he
      · exact h.writable.values e he
      · rcases mem_compileItem hchild he with rfl | rfl
        · simpa using hret
        · simp

theorem lists_addCompile (h : p.Fit) (hne : file ≠ []) :
    (p.addCompile file).Lists "Compile" "Include" file := by
  rcases @addCompile_cases p file h.root with ⟨hsame, hlisted⟩ | ⟨child, q, hchild, happend, -, -⟩
  · obtain ⟨e, he, hvalue⟩ := List.mem_map.1 hlisted
    rw [hsame]
    refine ⟨e, he, ?_⟩
    rw [Element.attrD] at hvalue
    cases hattr : e.attr? "Include" with
    | none => exact absurd (by rw [← hvalue, hattr]; rfl) hne
    | some w =>
      rw [hattr] at hvalue
      exact congrArg some hvalue
  · refine lists_iff.2 ⟨⟨⟨[], "Compile"⟩, [⟨⟨[], "Include"⟩, file⟩]⟩, happend.mem_iff.2 (.inr ?_),
      rfl, rfl⟩
    rcases hchild with rfl | rfl <;> simp [plainElement, compileItem]

theorem lists_addCompile_of_lists (h : p.Fit) (hlists : p.Lists tag key v) :
    (p.addCompile file).Lists tag key v := by
  rcases @addCompile_cases p file h.root with ⟨hsame, -⟩ | ⟨child, q, -, happend, -, -⟩
  · rwa [hsame]
  · obtain ⟨e, he, hname⟩ := lists_iff.1 hlists
    exact lists_iff.2 ⟨e, happend.mem_iff.2 (.inl he), hname⟩

theorem lists_of_addCompile (h : p.Fit) (hlists : (p.addCompile file).Lists tag "Include" v) :
    p.Lists tag "Include" v ∨ v = file := by
  rcases @addCompile_cases p file h.root with ⟨hsame, -⟩ | ⟨child, q, hchild, happend, -, -⟩
  · rw [hsame] at hlists
    exact .inl hlists
  · obtain ⟨e, he, hname, hvalue⟩ := lists_iff.1 hlists
    rcases happend.mem_iff.1 he with he | he
    · exact .inl (lists_iff.2 ⟨e, he, hname, hvalue⟩)
    · rcases mem_compileItem hchild he with rfl | rfl
      · exact .inr (Option.some.inj hvalue).symm
      · cases hvalue

/-- A project that does not count as edited after a file was added is as it was. -/
theorem nodes_addCompile (h : (p.addCompile file).modified = false) : p.addCompile file = p := by
  unfold addCompile at h ⊢
  split at h
  · rename_i hlisted
    rw [if_pos hlisted]
  · cases h

/-! ## Runs of edits -/

theorem lists_of_removeItems (h : (p.removeItems file).2.Lists tag key v) : p.Lists tag key v :=
  lists_of_removeWhere (lists_of_removeWhere h)

theorem omits_removeItems : (p.removeItems file).2.Omits file := by
  rintro tag (rfl | rfl)
  · exact fun h => not_lists_removeWhere (by simp) (lists_of_removeWhere h)
  · exact not_lists_removeWhere (by simp)

theorem lists_removeItems (hfit : p.Fit) (hne : v ≠ file) (h : p.Lists "Compile" "Include" v) :
    (p.removeItems file).2.Lists "Compile" "Include" v :=
  lists_removeWhere (hfit.removeWhere (by decide)) (by decide) (fun hc => absurd hc (by decide))
    (lists_removeWhere hfit (by decide) (fun _ => ⟨rfl, by simpa using hne⟩) h)

theorem Fit.removeItems (h : p.Fit) : (p.removeItems file).2.Fit :=
  (h.removeWhere (by decide)).removeWhere (by decide)

def withoutItems (p : Project) (files : List Bytes) : Project :=
  files.foldl (fun p file => (p.removeItems file).2) p

theorem withoutItems_append (p : Project) (files more : List Bytes) :
    p.withoutItems (files ++ more) = (p.withoutItems files).withoutItems more := List.foldl_append

theorem withoutItems_path (p : Project) (files : List Bytes) : (p.withoutItems files).path = p.path := by
  induction files generalizing p with
  | nil => rfl
  | cons file files ih => exact ih _

theorem nodes_withoutItems {files : List Bytes} (h : (p.withoutItems files).modified = false) :
    p.modified = false ∧ (p.withoutItems files).nodes = p.nodes := by
  induction files generalizing p with
  | nil => exact ⟨h, rfl⟩
  | cons file files ih =>
    obtain ⟨hmodified, hnodes⟩ := ih h
    obtain ⟨hmodified, hcontent⟩ := nodes_removeWhere hmodified
    obtain ⟨hmodified, hcompile⟩ := nodes_removeWhere hmodified
    exact ⟨hmodified, hnodes.trans (hcontent.trans hcompile)⟩

/-! ## Paths as items -/

/-- A path from the root of a project as its items write it. -/
def itemOf (path : Bytes) : Bytes := path.replaceByte Path.slash "\\"

theorem itemOf_eq_map (path : Bytes) :
    itemOf path = path.map fun c => if c = Path.slash then 0x5C else c := by
  induction path with
  | nil => rfl
  | cons c path ih =>
    rw [List.map_cons, ← ih]
    show (if c = Path.slash then ("\\" : Bytes) else [c]) ++ itemOf path = _
    split <;> rfl

theorem itemOf_append (a b : Bytes) : itemOf (a ++ b) = itemOf a ++ itemOf b := List.flatMap_append

theorem itemOf_eq_self {path : Bytes} (h : Path.slash ∉ path) : itemOf path = path := by
  rw [itemOf_eq_map]
  refine (List.map_congr_left fun c hc => ?_).trans (List.map_id _)
  refine if_neg fun hslash => h ?_
  rwa [← hslash]

/-- A name without either separator ends an item when it ends the path. -/
theorem suffix_itemOf_iff {n path : Bytes} (hslash : Path.slash ∉ n) (hback : 0x5C ∉ n) :
    n <:+ itemOf path ↔ n <:+ path := by
  constructor
  · rintro ⟨u, hu⟩
    rw [itemOf_eq_map] at hu
    obtain ⟨a, b, rfl, -, hb⟩ := List.map_eq_append_iff.1 hu.symm
    have hno : Path.slash ∉ b := fun hmem => hback (by
      rw [← hb]
      exact List.mem_map.2 ⟨_, hmem, if_pos rfl⟩)
    rw [← itemOf_eq_map, itemOf_eq_self hno] at hb
    exact ⟨a, by rw [hb]⟩
  · rintro ⟨u, rfl⟩
    rw [itemOf_append, itemOf_eq_self hslash]
    exact List.suffix_append _ _

theorem isLegal_itemOf {path : Bytes} (h : isLegal path = true) : isLegal (itemOf path) = true := by
  induction path using Utf8.rune_induction with
  | nil => exact h
  | rune r w hr hrunes hdecode ih =>
    obtain ⟨hu, hchar⟩ := encodes_of_isLegal h (r := r) (by rw [hrunes]; exact List.mem_cons_self)
    rw [isLegal_append hu hchar] at h
    rw [itemOf_append]
    by_cases hslash : Path.slash ∈ r.2
    · rcases hu.ascii_or with ⟨a, ha, -, -⟩ | ⟨-, hhigh⟩
      · rw [ha, List.mem_singleton] at hslash
        rw [ha, ← hslash]
        exact (isLegal_append (Utf8.Encodes.one (a := 0x5C) (by decide)) (by decide) _).trans (ih h)
      · exact absurd (hhigh _ hslash) (by decide)
    · rw [itemOf_eq_self hslash, isLegal_append hu hchar, ih h]

theorem return_not_mem_itemOf {path : Bytes} (h : 0x0D ∉ path) : 0x0D ∉ itemOf path := by
  rw [itemOf_eq_map]
  intro hmem
  obtain ⟨c, hc, heq⟩ := List.mem_map.1 hmem
  split at heq
  · cases heq
  · exact h (heq ▸ hc)

theorem itemOf_ne_nil {path : Bytes} (h : path ≠ []) : itemOf path ≠ [] := by
  rw [itemOf_eq_map]
  simpa using h

/-! ## Saving -/

theorem ofBytes_path {path data : Bytes} (h : ofBytes path data = .ok p) : p.path = path := by
  rw [ofBytes] at h
  split at h
  · cases h
  · split at h
    · cases h
    · cases h
      rfl

theorem encodes_byteOrderMark : Utf8.Encodes byteOrderMark 0xFEFF :=
  .three (by decide) (by decide) (by decide)

/-- What is read back of a document is what the file of the project gives. -/
theorem parse?_toBytes (h : Formed Element.Named p.nodes) :
    ∃ nodes, bare nodes = bare (settled p.nodes) ∧
      parse? (if byteOrderMark.isPrefixOf p.toBytes then p.toBytes.drop 3 else p.toBytes) =
        some nodes := by
  have hmark : byteOrderMark.length = 3 := rfl
  rw [toBytes]
  cases p.marked with
  | true =>
    obtain ⟨nodes, hread, hbare⟩ := parse?_save h
    refine ⟨nodes, hbare, ?_⟩
    rw [if_pos rfl, if_pos (List.isPrefixOf_iff_prefix.2 (List.prefix_append _ _)),
      ← hmark, List.drop_left, hread]
  | false =>
    simp only [Bool.false_eq_true, if_false, List.nil_append]
    split
    · rename_i hprefix
      -- a text may begin with the character that marks the byte order
      obtain ⟨r, hr⟩ := List.isPrefixOf_iff_prefix.1 hprefix
      obtain ⟨nodes, hread, hbare⟩ := parse?_save_high h encodes_byteOrderMark (by decide +kernel) hr.symm
      refine ⟨nodes, hbare, ?_⟩
      rw [← hr, ← hmark, List.drop_left, hread]
    · obtain ⟨nodes, hread, hbare⟩ := parse?_save h
      exact ⟨nodes, hbare, hread⟩

/-- A project that is saved is read back with its elements, and with their values as they are read. -/
theorem ofBytes_toBytes (h : Formed Element.Named p.nodes) {root : Name}
    (hroot : rootName? p.nodes = some root) :
    ∃ p', ofBytes p.path p.toBytes = .ok p' ∧ p'.modified = false ∧ Legal p'.nodes ∧
      bare p'.nodes = bare (settled p.nodes) := by
  obtain ⟨nodes, hbare, hread⟩ := parse?_toBytes h
  refine ⟨{ path := p.path, nodes := nodes, marked := byteOrderMark.isPrefixOf p.toBytes }, ?_, rfl,
    legal_of_parse? hread, hbare⟩
  have hname : rootName? nodes = some root := by
    rw [← rootName?_bare, hbare, rootName?_bare, rootName?_settled, hroot]
  have hsome : (root? nodes).isNone = false := by
    rw [rootName?] at hname
    cases hr : root? nodes with
    | none =>
      rw [hr] at hname
      cases hname
    | some r => rfl
  simp only [ofBytes, parse, hread, hsome, Bool.false_eq_true, if_false]

/-- **A project that is saved is read back**: it lists the same, and is as fit as it was. -/
theorem exists_read_back (h : p.Fit) :
    ∃ p', ofBytes p.path p.toBytes = .ok p' ∧ p'.Fit ∧
      ∀ tag key v, p'.Lists tag key v ↔ p.Lists tag key v := by
  obtain ⟨name, hroot, hkept⟩ := h.root
  obtain ⟨p', hread, -, hlegal, hbare⟩ := ofBytes_toBytes h.writable.formed hroot
  rw [h.writable.settled_eq] at hbare
  have hmem : ∀ e, e ∈ breadthFirst p'.nodes ↔ e ∈ breadthFirst p.nodes := fun e => by
    rw [← mem_breadthFirst_bare, hbare, mem_breadthFirst_bare]
  refine ⟨p', hread, ⟨⟨name, ?_, hkept⟩, ?_, hlegal, fun e he => ?_⟩, fun tag key v => ?_⟩
  · rw [← rootName?_bare, hbare, rootName?_bare, hroot]
  · rw [← areFlat_bare, hbare, areFlat_bare]
    exact h.flat
  · exact h.writable.values e ((hmem e).1 he)
  · rw [lists_iff, lists_iff]
    simp only [hmem]

end Project

end Flowsmith
