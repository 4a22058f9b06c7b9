import Flowsmith.Proofs.Project.Modified
import Flowsmith.Proofs.Xml.Entries

/-!
# Edits are exact

An edit of a project changes what it names, at every depth of the document, and nothing else.

* `Element.carries` : the elements that an edit names;
* `Removal`, `removal_removeWhere`, `removal_removeItems` : how many there were, and what is left;
* `Addition`, `addition_addCompile` : where the item of a source file is put;
* `items_undone` : a source file that is added and removed again leaves the other items as they were;
* `Rooted.run`, `edits_exact` : edits after any actions.
-/

namespace Flowsmith

open Xml

/-- Whether an element has a tag, whatever its prefix, and one of the values of an attribute. -/
def Xml.Element.carries (tag key : Bytes) (values : List Bytes) (e : Element) : Bool :=
  e.name.tag == tag && (e.attr? key).any values.contains

/-- Whether an element is a group of items, whatever its prefix. -/
def Xml.Element.isGroup (e : Element) : Bool := e.name.tag == ("ItemGroup" : Bytes)

/-- Whether an element is a source item or a content item of a file. -/
def Xml.Element.isItemOf (file : Bytes) (e : Element) : Bool :=
  e.carries "Compile" "Include" [file] || e.carries "Content" "Include" [file]

namespace Project

variable {p : Project} {tag key file : Bytes} {wanted : Bytes → Bool} {values : List Bytes}
  {hit : Element → Bool}

/-! ## Removing elements -/

theorem isTarget_eq_carries (htag : 0x3A ∉ tag) (h : ∀ v, wanted v = values.contains v) :
    isTarget tag key wanted = Element.carries tag key values := by
  funext e
  rw [isTarget, Element.carries, isMeantBy_ofPath htag, Bool.beq_comm, funext h]

theorem beq_eq_contains (v : Bytes) : (v == file) = [file].contains v := by
  rw [List.contains_cons, List.contains_nil, Bool.or_false]

/-- `r` is what a removal of the elements that `hit` picks makes of a project: `count` is returned, none of
them is left, and everything is left that neither is one of them nor lies in one, in the same order. -/
structure Removal (p : Project) (hit : Element → Bool) (count : Nat) (r : Nat × Project) : Prop where
  count : r.1 = count
  gone : ∀ x ∈ entries [] r.2.nodes, x.meets hit = false
  rest : entries [] r.2.nodes = (entries [] p.nodes).filter fun x => !x.path.any hit

theorem Removal.of_rest {count : Nat} {r : Nat × Project} (hcount : r.1 = count)
    (hrest : entries [] r.2.nodes = (entries [] p.nodes).filter fun x => !x.path.any hit) :
    Removal p hit count r := by
  refine ⟨hcount, fun x hx => ?_, hrest⟩
  rw [hrest, List.mem_filter, Bool.not_eq_true'] at hx
  exact Xml.Entry.meets_of_path hx.2

theorem removal_removeWhere (h : isTarget tag key wanted = hit) :
    Removal p hit ((entries [] p.nodes).countP (Xml.Entry.meets hit)) (p.removeWhere tag key wanted) := by
  subst h
  refine .of_rest ?_ (entries_pruneAll rfl)
  rw [← countP_breadthFirst, List.countP_eq_length_filter]
  rfl

theorem carries_eq_false {tag' key' : Bytes} {values' : List Bytes} {e : Element}
    (h : e.carries tag key values = true) (hne : tag ≠ tag') : e.carries tag' key' values' = false := by
  rw [Element.carries, Bool.and_eq_true, beq_iff_eq] at h
  rw [Element.carries, h.1, beq_false_of_ne hne, Bool.false_and]

/-- Removing the items of a file removes its source items and its content items. A content item that lies
in a source item that is removed is gone with it and not counted. -/
theorem removal_removeItems (p : Project) (file : Bytes) :
    Removal p (Element.isItemOf file)
      ((entries [] p.nodes).countP (Xml.Entry.meets (Element.carries "Compile" "Include" [file])) +
        (entries [] p.nodes).countP fun x => x.meets (Element.carries "Content" "Include" [file]) &&
          !x.above.any (Element.carries "Compile" "Include" [file]))
      (p.removeItems file) := by
  have hcompile := @removal_removeWhere p _ _ _ _
    (@isTarget_eq_carries "Compile" "Include" _ [file] (by decide) (@beq_eq_contains file))
  have hcontent := @removal_removeWhere (p.removeWhere "Compile" "Include" (· == file)).2 _ _ _ _
    (@isTarget_eq_carries "Content" "Include" _ [file] (by decide) (@beq_eq_contains file))
  refine .of_rest ?_ ?_
  · show _ + _ = _ + _
    rw [hcompile.count, hcontent.count, hcompile.rest, List.countP_filter]
    congr 1
    refine List.countP_congr fun x _ => ?_
    -- a content item lies in a source item exactly when one is on the way to it
    cases hmeets : x.meets (Element.carries "Content" "Include" [file]) with
    | false => simp
    | true =>
      have hother : x.meets (Element.carries "Compile" "Include" [file]) = false := by
        rw [Xml.Entry.meets, Option.any_eq_true] at hmeets
        obtain ⟨e, he, hcarries⟩ := hmeets
        rw [Xml.Entry.meets, he]
        exact carries_eq_false hcarries (by decide)
      rw [Xml.Entry.any_path, hother, Bool.or_false]
  · show entries [] (Project.removeWhere _ _ _ _).2.nodes = _
    rw [hcontent.rest, hcompile.rest, List.filter_filter]
    refine List.filter_congr fun x _ => ?_
    rw [Bool.eq_iff_iff]
    simp only [Bool.and_eq_true, Bool.not_eq_true', List.any_eq_false, Element.isItemOf,
      Bool.or_eq_true, not_or, ← forall_and]
    exact forall₂_congr fun _ _ => and_comm

/-! ## Adding a source file -/

theorem isMeantBy_eq_isGroup :
    (fun e : Element => e.name.isMeantBy (.ofPath "ItemGroup")) = Element.isGroup := by
  funext e
  rw [isMeantBy_ofPath (by decide), Bool.beq_comm, Element.isGroup]

/-- A source file that is not listed is put at the end of the first group, or into a new group at the end
of the root where there is none. -/
theorem exists_insertion (hroot : p.Rooted) (hnew : file ∉ p.items "Compile") :
    (∃ i : Insertion (entries [] p.nodes) (entries [] (p.addCompile file).nodes),
      i.IntoFirst Element.isGroup ∧ i.added = entries i.group.path [compileItem file]) ∨
    (∀ x ∈ entries [] p.nodes, x.meets Element.isGroup = false) ∧
      ∃ i : Insertion (entries [] p.nodes) (entries [] (p.addCompile file).nodes), i.IntoRoot ∧
        i.added = entries i.group.path [plainElement "ItemGroup" [] [compileItem file]] := by
  rw [addCompile, if_neg (by simpa using hnew), ← isMeantBy_eq_isGroup]
  cases happend : appendTo? "ItemGroup" (compileItem file) p.nodes with
  | some nodes => exact .inl (exists_of_appendTo? happend)
  | none =>
    obtain ⟨name, hname, -⟩ := hroot
    exact .inr ⟨fun x hx => not_meets_of_appendTo? happend hx, appendToRoot_insertion hname⟩

/-- `q` is what adding a source file makes of a project: it is listed, and where it was not listed before
its item is new, last in the first group, level by level, or alone in a new group at the end of the
root. -/
structure Addition (p : Project) (file : Bytes) (q : Project) : Prop where
  listed : file ∈ q.items "Compile"
  same : file ∈ p.items "Compile" → q = p
  grouped : file ∉ p.items "Compile" → (∃ x ∈ entries [] p.nodes, x.meets Element.isGroup = true) →
    ∃ i : Insertion (entries [] p.nodes) (entries [] q.nodes), i.IntoFirst Element.isGroup ∧
      i.added = [⟨i.group.path, .element ⟨[], "Compile"⟩ [⟨⟨[], "Include"⟩, file⟩] []⟩]
  ungrouped : file ∉ p.items "Compile" → (∀ x ∈ entries [] p.nodes, x.meets Element.isGroup = false) →
    ∃ i : Insertion (entries [] p.nodes) (entries [] q.nodes), i.IntoRoot ∧
      i.added = [⟨i.group.path, .element ⟨[], "ItemGroup"⟩ [] []⟩,
        ⟨i.group.path ++ [⟨⟨[], "ItemGroup"⟩, []⟩],
          .element ⟨[], "Compile"⟩ [⟨⟨[], "Include"⟩, file⟩] []⟩]

theorem addition_addCompile (hroot : p.Rooted) (file : Bytes) : Addition p file (p.addCompile file) := by
  have hsame : file ∈ p.items "Compile" → p.addCompile file = p := fun hlisted => by
    rw [addCompile, if_pos (by simpa using hlisted)]
  refine ⟨?_, hsame, fun hnew hgroup => ?_, fun hnew hnone => ?_⟩
  · rcases @addCompile_cases p file hroot with ⟨hsame, hlisted⟩ | ⟨child, q, hchild, happend, -, -⟩
    · rwa [hsame]
    · have hmem : ⟨⟨[], "Compile"⟩, [⟨⟨[], "Include"⟩, file⟩]⟩ ∈ breadthFirst [child] := by
        rcases hchild with rfl | rfl <;> simp [plainElement, compileItem]
      exact mem_items.2 ⟨_, List.mem_filter.2 ⟨happend.mem_iff.2 (.inr hmem), rfl⟩, rfl⟩
  · rcases exists_insertion hroot hnew with ⟨i, hfirst, hadded⟩ | ⟨hnone, -⟩
    · exact ⟨i, hfirst, hadded.trans entries_element⟩
    · obtain ⟨x, hx, hmeets⟩ := hgroup
      rw [hnone x hx] at hmeets
      cases hmeets
  · rcases exists_insertion hroot hnew with ⟨i, hfirst, -⟩ | ⟨-, i, hinto, hadded⟩
    · have hmeets := hfirst.meets
      rw [hnone i.group (i.mem_old_iff.2 (.inr (.inl rfl)))] at hmeets
      cases hmeets
    · refine ⟨i, hinto, hadded.trans ?_⟩
      simp [plainElement, compileItem]

/-! ## Adding and removing -/

theorem isMeantBy_plain_iff {t : Bytes} {step : Name} :
    (⟨[], t⟩ : Name).isMeantBy step = true ↔ step = ⟨[], t⟩ := by
  obtain ⟨space, tag⟩ := step
  cases space <;> simp [Name.isMeantBy]

/-- What is put into a document with the item of a source file goes with the item, but for a new group. -/
theorem added_item {a : List Element} {child : Node} {x : Xml.Entry}
    (hchild : child = compileItem file ∨ child = plainElement "ItemGroup" [] [compileItem file])
    (hx : x ∈ entries a [child]) : x.meets (Element.isItemOf file) = true ∨
      x.element? = some ⟨⟨[], "ItemGroup"⟩, []⟩ := by
  have hitem : ∀ b, (⟨b, compileItem file⟩ : Xml.Entry).meets (Element.isItemOf file) = true := by
    intro b
    have hvalue : Element.attr? ⟨⟨[], "Compile"⟩, [⟨⟨[], "Include"⟩, file⟩]⟩ "Include" = some file := rfl
    simp [Xml.Entry.meets, Xml.Entry.element?, compileItem, plainElement, Element.isItemOf, Element.carries,
      hvalue]
  rcases hchild with rfl | rfl
  · obtain rfl := List.mem_singleton.1 (show x ∈ [⟨a, compileItem file⟩] from hx)
    exact .inl (hitem a)
  · rcases List.mem_cons.1 hx with rfl | hx
    · exact .inr rfl
    · obtain rfl := List.mem_singleton.1 (show x ∈ [⟨_, compileItem file⟩] from hx)
      exact .inl (hitem _)

theorem isItemOf_of_omits (h : p.Omits file) {e : Element} (he : e ∈ breadthFirst p.nodes) :
    e.isItemOf file = false := by
  have hnone : ∀ tag, tag = ("Compile" : Bytes) ∨ tag = ("Content" : Bytes) →
      e.carries tag "Include" [file] = false := by
    intro tag htag
    have hcolon : 0x3A ∉ tag := by rcases htag with rfl | rfl <;> decide
    rw [← isTarget_eq_carries hcolon beq_eq_contains, isTarget, Bool.eq_false_iff, Ne, Bool.and_eq_true,
      Option.any_eq_true]
    rintro ⟨hname, v, hv, hfile⟩
    exact h tag htag (lists_iff.2 ⟨e, he, hname, by rw [hv, beq_iff_eq.1 hfile]⟩)
  rw [Element.isItemOf, hnone _ (.inl rfl), hnone _ (.inr rfl)]
  rfl

/-- **A source file that is added and removed again** leaves the items with every tag but that of groups as
they were. -/
theorem items_undone (hroot : p.Rooted) (homits : p.Omits file)
    (htag : Name.ofPath tag ≠ ⟨[], "ItemGroup"⟩) :
    ((p.addCompile file).removeItems file).2.items tag = p.items tag := by
  have hkept : ∀ x ∈ entries [] p.nodes, x.path.any (Element.isItemOf file) = false := by
    intro x hx
    rw [List.any_eq_false]
    exact fun e he => by simp [isItemOf_of_omits homits (mem_breadthFirst_of_path hx he)]
  refine congrArg (List.map (·.attrD "Include")) (elementsNamed_of_entries ?_)
  rw [(removal_removeItems (p.addCompile file) file).rest, List.filter_filter]
  refine Eq.trans ?_ (List.filter_congr (fun x hx => ?_) :
    (entries [] p.nodes).filter (fun x => x.meets (fun e => e.name.isMeantBy (.ofPath tag)) &&
      !x.path.any (Element.isItemOf file)) = _)
  · by_cases hnew : file ∈ p.items "Compile"
    · rw [(addition_addCompile hroot file).same hnew]
    · -- what is put in is removed again, or is a group, and no group is picked
      obtain ⟨child, hchild, i, hadded⟩ : ∃ child,
          (child = compileItem file ∨ child = plainElement "ItemGroup" [] [compileItem file]) ∧
            ∃ i : Insertion (entries [] p.nodes) (entries [] (p.addCompile file).nodes),
              i.added = entries i.group.path [child] := by
        rcases exists_insertion hroot hnew with ⟨i, -, hadded⟩ | ⟨-, i, -, hadded⟩
        · exact ⟨_, .inl rfl, i, hadded⟩
        · exact ⟨_, .inr rfl, i, hadded⟩
      refine i.filter_now fun x hx => ?_
      rw [hadded] at hx
      rcases added_item hchild hx with hitem | hgroup
      · rw [Xml.Entry.any_path, hitem, Bool.or_true, Bool.not_true, Bool.and_false]
      · have hother : (⟨[], "ItemGroup"⟩ : Name).isMeantBy (.ofPath tag) = false :=
          Bool.eq_false_iff.2 fun hmeant => htag (isMeantBy_plain_iff.1 hmeant)
        rw [Xml.Entry.meets, hgroup, Option.any_some, hother, Bool.false_and]
  · rw [hkept x hx, Bool.not_false, Bool.and_true]

/-! ## Edits after any actions -/

section Runs

variable {σ : Type} [FileStore σ] {x : Opened σ}

/-- An attempt to save leaves the document laid out. -/
theorem nodes_saved (x : Opened σ) : x.saved.project.nodes = layout x.project.nodes := by
  by_cases hsaves : x.Saves
  · obtain ⟨q, t, hsave⟩ := hsaves
    obtain ⟨-, rfl⟩ := save_iff.1 hsave
    unfold Opened.saved
    rw [show ran x.project.save x.files = _ from hsave]
    rfl
  · rw [Opened.saved_of_not_saves hsaves]
    rfl

theorem Rooted.after (h : x.project.Rooted) (a : Action σ) : (x.after a).project.Rooted := by
  cases a with
  | removeItems file => exact (h.removeWhere (by decide)).removeWhere (by decide)
  | removeImport targets => exact h.removeWhere (by decide)
  | removeReferences names => exact h.removeWhere (by decide)
  | addCompile file => exact h.addCompile
  | items tag => exact h
  | save =>
    show x.saved.project.Rooted
    rw [Rooted, nodes_saved, ← rootName?_bare, layout, bare_layoutAll, rootName?_bare]
    exact h
  | files change => exact h

theorem Rooted.run (h : x.project.Rooted) (acts : List (Action σ)) : (x.run acts).project.Rooted := by
  induction acts generalizing x with
  | nil => exact h
  | cons a acts ih => exact ih (h.after a)

/-- **Edits are exact**, whatever was done to a project since it was loaded. A removal returns how many
elements it names there are, and leaves everything but these and what lies in them; a source file that is
added is listed, and put last in the first group where it was not; and where it had no item, removing it
again leaves the items with every tag but that of groups as they were. -/
theorem edits_exact {path data : Bytes} {p₀ : Project} (hload : ofBytes path data = .ok p₀)
    (hroot : ∀ name, rootName? p₀.nodes = some name → isTagged removable name = false)
    (files : σ) (acts : List (Action σ)) (hp : p = (Opened.run ⟨p₀, files⟩ acts).project) :
    (∀ file, Removal p (Element.isItemOf file)
      ((entries [] p.nodes).countP (Xml.Entry.meets (Element.carries "Compile" "Include" [file])) +
        (entries [] p.nodes).countP fun x => x.meets (Element.carries "Content" "Include" [file]) &&
          !x.above.any (Element.carries "Compile" "Include" [file]))
      (p.removeItems file)) ∧
    (∀ names, Removal p (Element.carries "Reference" "Include" names)
      ((entries [] p.nodes).countP (Xml.Entry.meets (Element.carries "Reference" "Include" names)))
      (p.removeReferences names)) ∧
    (∀ targets, Removal p (Element.carries "Import" "Project" [targets])
      ((entries [] p.nodes).countP (Xml.Entry.meets (Element.carries "Import" "Project" [targets])))
      (p.removeImport targets)) ∧
    (∀ file, Addition p file (p.addCompile file)) ∧
    ∀ file, p.Omits file → ∀ tag, Name.ofPath tag ≠ ⟨[], "ItemGroup"⟩ →
      ((p.addCompile file).removeItems file).2.items tag = p.items tag := by
  have hrooted : p.Rooted := by
    obtain ⟨-, -, name, hname⟩ := of_ofBytes hload
    rw [hp]
    exact Rooted.run ⟨name, hname, hroot name hname⟩ acts
  exact ⟨removal_removeItems p,
    fun names => removal_removeWhere (isTarget_eq_carries (by decide) fun _ => rfl),
    fun targets => removal_removeWhere (isTarget_eq_carries (by decide) beq_eq_contains),
    addition_addCompile hrooted, fun file homits tag htag => items_undone hrooted homits htag⟩

end Runs

/-- A project with a source item in which a content item of the same file lies. -/
def nested : Project where
  path := "/p.csproj"
  nodes := [.element ⟨[], "P"⟩ [] [.element ⟨[], "Compile"⟩ [⟨⟨[], "Include"⟩, "A"⟩]
    [.element ⟨[], "Content"⟩ [⟨⟨[], "Include"⟩, "A"⟩] []]]]

set_option maxRecDepth 20000 in
theorem edits_exact_nested :
    ofBytes "/p.csproj" "<P><Compile Include='A'><Content Include='A'/></Compile></P>" = .ok nested ∧
      (nested.removeItems "A").1 = 1 ∧
      entries [] (nested.removeItems "A").2.nodes = [⟨[], .element ⟨[], "P"⟩ [] []⟩] ∧
      ("B" : Bytes) ∈ (nested.addCompile "B").items "Compile" := by
  have hload : ofBytes "/p.csproj" "<P><Compile Include='A'><Content Include='A'/></Compile></P>"
      = .ok nested := by
    rw [nested]
    repeat rw [Bytes.ofString_ofList]
    decide +kernel
  obtain ⟨hitems, -, -, hadded, -⟩ := edits_exact hload
    (fun name hname => by rw [← Option.some.inj hname]; decide) Memory.empty [] rfl
  exact ⟨hload, (hitems "A").count.trans (by decide), (hitems "A").rest.trans (by rfl),
    (hadded "B").listed⟩

end Project

end Flowsmith
