import Flowsmith.Flow.Expression
import Flowsmith.Proofs.Outcome
import Flowsmith.Proofs.Xml.Forest

/-!
# Prefixes in scope

A definition keeps one address for each prefix, whichever element declares it. In markup a declaration
counts for its own element and what is below it. The two agree as long as no prefix is declared with two
addresses.

* `Xml.documentOrder` : the elements of a document, each before those below it;
* `address?_ofNodes` : the address of a prefix is that of its first declaration;
* `scopedAll`, `scopesOf` : the activities of markup with what is in scope at each;
* `resolved_in_scope` : steps are resolved against what is in scope.
-/

namespace Flowsmith.Xml

mutual

def Node.inOrder : Node → List Element
  | .element name attrs children => ⟨name, attrs⟩ :: documentOrder children
  | _ => []

def documentOrder : List Node → List Element
  | [] => []
  | n :: ns => n.inOrder ++ documentOrder ns

end

theorem documentOrder_element (name : Name) (attrs : List Attribute) (children ns : List Node) :
    documentOrder (.element name attrs children :: ns)
      = ⟨name, attrs⟩ :: (documentOrder children ++ documentOrder ns) := rfl

theorem documentOrder_leaf {n : Node} (ns : List Node) (h : n.isLeaf = true) :
    documentOrder (n :: ns) = documentOrder ns := by
  cases n <;> first | rfl | cases h

end Flowsmith.Xml

namespace Flowsmith.Definition

/-! ## The declarations of a document -/

def declares (space : Bytes) (a : Xml.Attribute) : Bool := a.name = ⟨declarationWord, space⟩

/-- The address in the first declaration of a prefix among elements. -/
def firstDeclared? (space : Bytes) (es : List Xml.Element) : Option Bytes :=
  ((es.flatMap (·.attrs)).find? (declares space)).map (·.value)

theorem declarations_eq (ns : List Xml.Node) :
    declarations ns = declaredBy ((Xml.documentOrder ns).flatMap (·.attrs)) := by
  induction ns using Xml.forest_induction with
  | nil => rfl
  | element name attrs children ns ihc ihn =>
    rw [declarations, nodeDeclarations, ihc, ihn, Xml.documentOrder_element]
    simp only [declaredBy, List.flatMap_cons, List.flatMap_append, List.filter_append, List.map_append,
      List.append_assoc]
  | leaf n ns hn ihn =>
    have hnone : nodeDeclarations n = [] := by cases n <;> first | rfl | cases hn
    rw [declarations, hnone, List.nil_append, ihn, Xml.documentOrder_leaf ns hn]

theorem address?_declaredBy (attrs : List Xml.Attribute) (space : Bytes) :
    Bindings.address? (declaredBy attrs) space
      = (attrs.find? (declares space)).map (·.value) := by
  have hsame : (fun a : Xml.Attribute => decide
      (((a.name.space == declarationWord) = true) ∧ (a.name.tag == space) = true)) = declares space := by
    funext ⟨⟨s, t⟩, u⟩
    rw [Bool.eq_iff_iff]
    simp [declares]
  simp only [Bindings.address?, declaredBy, List.find?_map, List.find?_filter, Option.map_map]
  rw [← hsame]
  rfl

theorem mem_declaredBy {attrs : List Xml.Attribute} {d : Bytes × Bytes} :
    d ∈ declaredBy attrs ↔ ∃ a ∈ attrs, declares d.1 a = true ∧ a.value = d.2 := by
  obtain ⟨space, uri⟩ := d
  constructor
  · intro h
    obtain ⟨⟨⟨s, t⟩, u⟩, ha, heq⟩ := List.mem_map.1 h
    obtain ⟨hmem, hword⟩ := List.mem_filter.1 ha
    cases heq
    exact ⟨_, hmem, by simpa [declares] using hword, rfl⟩
  · rintro ⟨⟨⟨s, t⟩, u⟩, hmem, hdeclares, rfl⟩
    simp only [declares, decide_eq_true_eq, Xml.Name.mk.injEq] at hdeclares
    obtain ⟨rfl, rfl⟩ := hdeclares
    exact List.mem_map.2 ⟨_, List.mem_filter.2 ⟨hmem, by simp⟩, rfl⟩

namespace Bindings

theorem mem_of_address? {b : Bindings} {space uri : Bytes} (h : b.address? space = some uri) :
    (space, uri) ∈ b := by
  obtain ⟨d, hd, rfl⟩ := Option.map_eq_some_iff.1 h
  have hspace : d.1 = space := by simpa using List.find?_some hd
  rw [← hspace]
  exact List.mem_of_find?_eq_some hd

theorem exists_address? {b : Bindings} {space uri : Bytes} (h : (space, uri) ∈ b) :
    ∃ first, b.address? space = some first := by
  cases hfind : b.find? (·.1 == space) with
  | none => exact absurd (List.find?_eq_none.1 hfind _ h) (by simp)
  | some d => exact ⟨d.2, by rw [address?, hfind]; rfl⟩

/-- The declarations that count give each prefix its address. -/
theorem mem_entries {b : Bindings} {space uri : Bytes} :
    (space, uri) ∈ b.entries ↔ b.address? space = some uri := by
  induction b with
  | nil => simp [entries, address?]
  | cons d ds ih =>
    rw [entries, List.mem_cons, List.mem_filter, ih]
    by_cases hd : d.1 = space
    · subst hd
      simp [address?, Prod.ext_iff, eq_comm]
    · have hne : (space, uri) ≠ d := fun h => hd (congrArg Prod.fst h).symm
      simp [address?, hd, hne, Ne.symm hd]

theorem resolve_congr {b b' : Bindings} {space : Bytes} (h : b.address? space = b'.address? space) :
    b.resolve space = b'.resolve space := by
  unfold resolve
  rw [h]

end Bindings

theorem stepType_congr {b b' : Bindings} {n : Node} (h : b.address? n.space = b'.address? n.space) :
    Flow.stepType b n = Flow.stepType b' n := by
  unfold Flow.stepType
  rw [Bindings.resolve_congr h]

/-! ## Documents -/

/-- The elements of the tree that a definition is read from: the first one at the top, and those below
it. -/
def treeElements (ns : List Xml.Node) : List Xml.Element :=
  match Xml.root? ns with
  | some (name, attrs, children) => Xml.documentOrder [.element name attrs children]
  | none => []

theorem ofNodes_of_sequence {v : Vocabulary} {ns children : List Xml.Node} {name : Xml.Name}
    {attrs : List Xml.Attribute} (hroot : Xml.root? ns = some (name, attrs, children))
    (hkind : v.classify? name = some .sequence) :
    ofNodes v ns = .ok
      ⟨some (.mk .sequence name.tag name.space (ownAttributes attrs) (convertAll v children)),
        declaredBy attrs ++ declarations children⟩ := by
  unfold ofNodes
  rw [hroot]
  exact if_pos hkind

theorem ofNodes_ok {v : Vocabulary} {ns : List Xml.Node} {doc : Document}
    (h : ofNodes v ns = .ok doc) :
    ∃ name attrs children, Xml.root? ns = some (name, attrs, children) ∧
      v.classify? name = some .sequence ∧
      doc.root? = some
        (.mk .sequence name.tag name.space (ownAttributes attrs) (convertAll v children)) ∧
      doc.bindings = declaredBy ((treeElements ns).flatMap (·.attrs)) := by
  unfold ofNodes at h
  split at h
  · cases h
  · rename_i name attrs children hroot
    split at h
    · rename_i hkind
      cases h
      refine ⟨name, attrs, children, hroot, hkind, rfl, ?_⟩
      rw [treeElements, hroot, ← declarations_eq]
      simp only [declarations, nodeDeclarations, List.append_nil]
    · cases h

/-- A definition gives each prefix the address of its first declaration. -/
theorem address?_ofNodes {v : Vocabulary} {ns : List Xml.Node} {doc : Document}
    (h : ofNodes v ns = .ok doc) (space : Bytes) :
    doc.bindings.address? space = firstDeclared? space (treeElements ns) := by
  obtain ⟨-, -, -, -, -, -, hbindings⟩ := ofNodes_ok h
  rw [hbindings, address?_declaredBy, firstDeclared?]

/-! ## Scopes -/

mutual

/-- An activity and all that are below it, each before those below itself. -/
def Node.every : Node → List Node
  | .mk kind tag space attrs children => .mk kind tag space attrs children :: everyNode children

def everyNode : List Node → List Node
  | [] => []
  | n :: ns => n.every ++ everyNode ns

end

theorem everyNode_append (ns ms : List Node) :
    everyNode (ns ++ ms) = everyNode ns ++ everyNode ms := by
  induction ns with
  | nil => rfl
  | cons n ns ih => rw [List.cons_append, everyNode, everyNode, ih, List.append_assoc]

mutual

/-- The activities of a node with what is in scope at each, the innermost declarations first; `outer` is
what is in scope around the node. -/
def scopedNode (v : Vocabulary) (outer : Bindings) : Xml.Node → List (Bindings × Node)
  | .element name attrs children =>
    match v.classify? name with
    | some kind =>
      (declaredBy attrs ++ outer,
          .mk kind name.tag name.space (ownAttributes attrs) (convertAll v children))
        :: scopedAll v (declaredBy attrs ++ outer) children
    | none => []
  | _ => []

/-- The activities of nodes with what is in scope at each. -/
def scopedAll (v : Vocabulary) (outer : Bindings) : List Xml.Node → List (Bindings × Node)
  | [] => []
  | n :: ns => scopedNode v outer n ++ scopedAll v outer ns

end

/-- The activities of a document with what is in scope at each. -/
def scopesOf (v : Vocabulary) (ns : List Xml.Node) : List (Bindings × Node) :=
  match Xml.root? ns with
  | some (name, attrs, children) => scopedNode v [] (.element name attrs children)
  | none => []

section Scoped

variable {v : Vocabulary}

theorem scopedAll_element (outer : Bindings) (name : Xml.Name) (attrs : List Xml.Attribute)
    (children ns : List Xml.Node) :
    scopedAll v outer (.element name attrs children :: ns)
      = scopedNode v outer (.element name attrs children) ++ scopedAll v outer ns := rfl

theorem scopedAll_leaf {outer : Bindings} {n : Xml.Node} (ns : List Xml.Node) (h : n.isLeaf = true) :
    scopedAll v outer (n :: ns) = scopedAll v outer ns := by
  cases n <;> first | rfl | cases h

theorem scopedAll_activities (outer : Bindings) (ns : List Xml.Node) :
    (scopedAll v outer ns).map (·.2) = everyNode (convertAll v ns) := by
  induction ns using Xml.forest_induction generalizing outer with
  | nil => rfl
  | element name attrs children ns ihc ihn =>
    rw [scopedAll_element, List.map_append, ihn, convertAll, everyNode_append, scopedNode, convertNode]
    congr 1
    cases v.classify? name with
    | none => rfl
    | some kind =>
      simp only [List.map_cons, ihc, everyNode, Node.every, List.append_nil]
  | leaf n ns hn ihn =>
    have hnone : convertNode v n = [] := by cases n <;> first | rfl | cases hn
    rw [scopedAll_leaf ns hn, ihn, convertAll, hnone, List.nil_append]

/-- What is in scope was declared around the nodes, or on one of their elements. -/
theorem mem_scope {outer : Bindings} {ns : List Xml.Node} {x : Bindings × Node}
    (hx : x ∈ scopedAll v outer ns) {d : Bytes × Bytes} (hd : d ∈ x.1) :
    d ∈ outer ∨ d ∈ declaredBy ((Xml.documentOrder ns).flatMap (·.attrs)) := by
  rw [← declarations_eq]
  induction ns using Xml.forest_induction generalizing outer with
  | nil => cases hx
  | element name attrs children ns ihc ihn =>
    rw [declarations, nodeDeclarations, List.mem_append, List.mem_append]
    rw [scopedAll_element, List.mem_append, scopedNode] at hx
    rcases hx with hx | hx
    · cases hkind : v.classify? name with
      | none =>
        rw [hkind] at hx
        cases hx
      | some kind =>
        rw [hkind] at hx
        have hown : d ∈ declaredBy attrs ++ outer ∨ d ∈ declarations children := by
          rcases List.mem_cons.1 hx with rfl | hx
          · exact Or.inl hd
          · exact ihc hx
        rw [List.mem_append] at hown
        rcases hown with (hown | hown) | hown
        · exact Or.inr (Or.inl (Or.inl hown))
        · exact Or.inl hown
        · exact Or.inr (Or.inl (Or.inr hown))
    · rcases ihn hx with h | h
      · exact Or.inl h
      · exact Or.inr (Or.inr h)
  | leaf n ns hn ihn =>
    rw [scopedAll_leaf ns hn] at hx
    rcases ihn hx with h | h
    · exact Or.inl h
    · exact Or.inr (List.mem_append_right _ h)

end Scoped

/-! ## Prefixes -/

def Unambiguous (es : List Xml.Element) : Prop :=
  ∀ a ∈ es.flatMap (·.attrs), ∀ a' ∈ es.flatMap (·.attrs),
    a.name.space = declarationWord → a'.name = a.name → a'.value = a.value

instance (es : List Xml.Element) : Decidable (Unambiguous es) :=
  inferInstanceAs (Decidable (∀ a ∈ _, _))

/-- Without ambiguity a prefix has the address of any of its declarations. -/
theorem address?_of_mem {es : List Xml.Element} (hes : Unambiguous es) {space uri : Bytes}
    (h : (space, uri) ∈ declaredBy (es.flatMap (·.attrs))) :
    Bindings.address? (declaredBy (es.flatMap (·.attrs))) space = some uri := by
  obtain ⟨first, hfirst⟩ := Bindings.exists_address? h
  obtain ⟨a, ha, hdeclares, rfl⟩ := mem_declaredBy.1 h
  obtain ⟨a', ha', hdeclares', rfl⟩ := mem_declaredBy.1 (Bindings.mem_of_address? hfirst)
  simp only [declares, decide_eq_true_eq] at hdeclares hdeclares'
  rw [hfirst, hes a ha a' ha' (by rw [hdeclares]) (hdeclares'.trans hdeclares.symm)]

/-- **Prefixes.** A definition gives each prefix the address of its first declaration in document order,
on whichever element it stands. So when no prefix is declared with two addresses, every step whose
prefix is in scope is resolved against what is in scope at its element. -/
theorem resolved_in_scope (v : Vocabulary) (ns : List Xml.Node) (doc : Document)
    (h : ofNodes v ns = .ok doc) :
    (∀ space, doc.bindings.address? space = firstDeclared? space (treeElements ns)) ∧
    (∀ space uri, (space, uri) ∈ doc.bindings.entries ↔
      firstDeclared? space (treeElements ns) = some uri) ∧
    (∀ root ∈ doc.root?, (scopesOf v ns).map (·.2) = root.every) ∧
    (Unambiguous (treeElements ns) → ∀ x ∈ scopesOf v ns, x.2.kind = .step →
      ∀ uri, x.1.address? x.2.space = some uri →
        doc.bindings.address? x.2.space = some uri ∧
        Flow.stepType doc.bindings x.2 = Flow.stepType x.1 x.2) := by
  obtain ⟨name, attrs, children, hroot, hkind, hdoc, hbindings⟩ := ofNodes_ok h
  have htree : treeElements ns = Xml.documentOrder [.element name attrs children] := by
    rw [treeElements, hroot]
  have hscoped : scopesOf v ns = scopedAll v [] [.element name attrs children] := by
    rw [scopesOf, hroot]
    exact (List.append_nil _).symm
  refine ⟨address?_ofNodes h, fun space uri => ?_, fun root hmem => ?_, fun hes x hx _ uri huri => ?_⟩
  · rw [Bindings.mem_entries, address?_ofNodes h]
  · obtain rfl : _ = root := Option.some.inj (hdoc.symm.trans hmem)
    rw [hscoped, scopedAll_activities, convertAll, convertNode, hkind]
    simp only [convertAll, List.append_nil, everyNode]
  · have hmem := Bindings.mem_of_address? huri
    rw [hscoped] at hx
    rcases mem_scope hx hmem with hout | hin
    · cases hout
    · rw [← htree] at hin
      have haddress : doc.bindings.address? x.2.space = some uri := by
        rw [hbindings]
        exact address?_of_mem hes hin
      exact ⟨haddress, stepType_congr (haddress.trans huri.symm)⟩

/-- A step below a step, in the prefix that its own element declares; the prefix of the outer one is
declared on an element that is no activity. -/
def prefixed : List Xml.Node :=
  [.comment " top ",
   .element ⟨[], "S"⟩ [⟨⟨"xmlns", "p"⟩, "clr-namespace:N"⟩]
    [.element ⟨[], "S.Tag"⟩ [⟨⟨"xmlns", "q"⟩, "clr-namespace:Q"⟩] [],
     .element ⟨"q", "Outer"⟩ []
      [.element ⟨"r", "Inner"⟩
        [⟨⟨"xmlns", "r"⟩, "clr-namespace:M;A"⟩, ⟨⟨"xmlns", "p"⟩, "clr-namespace:N"⟩]
        []]]]

def shortWords : Vocabulary := ⟨["S"], "C", "B", ["K"]⟩

theorem resolved_in_scope_prefixed : ∃ doc, ofNodes shortWords prefixed = .ok doc ∧
    doc.bindings.address? "q" = some (Bytes.ofString "clr-namespace:Q") ∧
    Unambiguous (treeElements prefixed) ∧
    ∃ x ∈ scopesOf shortWords prefixed, x.2.kind = .step ∧
      x.1.address? x.2.space = some (Bytes.ofString "clr-namespace:M;A") ∧
      Flow.stepType doc.bindings x.2 = .ok "M.Inner" := by
  have h : ofNodes shortWords prefixed = .ok _ := ofNodes_of_sequence rfl (by decide)
  have hunambiguous : Unambiguous (treeElements prefixed) := by decide
  obtain ⟨hfirst, -, -, hscope⟩ := resolved_in_scope shortWords prefixed _ h
  obtain ⟨x, hx, hkind, huri, htype⟩ : ∃ x ∈ scopesOf shortWords prefixed, x.2.kind = .step ∧
      x.1.address? x.2.space = some (Bytes.ofString "clr-namespace:M;A") ∧
      Flow.stepType x.1 x.2 = .ok "M.Inner" :=
    ⟨_, List.mem_cons_of_mem _ (List.mem_cons_of_mem _ List.mem_cons_self), rfl, by decide,
      by decide +kernel⟩
  exact ⟨_, h, (hfirst "q").trans (by decide), hunambiguous, x, hx, hkind, huri,
    (hscope hunambiguous x hx hkind _ huri).2.trans htype⟩

end Flowsmith.Definition
