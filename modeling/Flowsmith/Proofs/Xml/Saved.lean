import Flowsmith.Proofs.Xml.Markup

/-!
# A saved document is read back

Saving sets the blanks of a document anew, and texts may be joined when they are read back. The
elements with their attributes are read back as they were, in the same places.

* `bare` : the elements of a document, in their places;
* `Formed`, `Legal`, `legal_of_parse?` : a document that was read can be written and read again;
* `settled`, `settled_eq_self` : a document with its values as they are read back, and `Writable` ones
  whose values survive;
* `parse?_save` : a document that is saved is read back with the same elements;
* `parse?_save_high` : also without a character beyond ASCII that it begins with.
-/

namespace Flowsmith.Xml

variable {name : Name} {attrs : List Attribute} {children ns : List Node}

/-! ## Elements alone -/

mutual

/-- A node without what is no element: itself with the elements below it, or nothing. -/
def Node.bare : Node → List Node
  | .element name attrs children => [.element name attrs (bare children)]
  | _ => []

/-- The elements of a document, in their places. -/
def bare : List Node → List Node
  | [] => []
  | n :: ns => n.bare ++ bare ns

end

@[simp] theorem bare_element :
    bare (.element name attrs children :: ns) = .element name attrs (bare children) :: bare ns := rfl

theorem Node.bare_of_isLeaf {n : Node} (h : n.isLeaf = true) : n.bare = [] := by
  cases n <;> first | rfl | cases h

theorem bare_leaf {n : Node} (h : n.isLeaf = true) : bare (n :: ns) = bare ns := by
  rw [bare, n.bare_of_isLeaf h, List.nil_append]

theorem bare_append (ns ms : List Node) : bare (ns ++ ms) = bare ns ++ bare ms := by
  induction ns with
  | nil => rfl
  | cons n ns ih => rw [List.cons_append, bare, bare, ih, List.append_assoc]

theorem bare_reverse (ns : List Node) : bare ns.reverse = (bare ns).reverse := by
  induction ns with
  | nil => rfl
  | cons n ns ih =>
    have hn : n.bare.reverse = n.bare := by cases n <;> rfl
    rw [List.reverse_cons, bare_append, ih, bare, bare, bare, List.reverse_append, hn,
      List.append_nil]

theorem mem_breadthFirst_bare {e : Element} : e ∈ breadthFirst (bare ns) ↔ e ∈ breadthFirst ns := by
  induction ns using forest_induction with
  | nil => exact Iff.rfl
  | element name attrs children ns ihc ihn =>
    rw [bare_element, mem_breadthFirst_element, mem_breadthFirst_element, ihc, ihn]
  | leaf n ns hn ihn => rw [bare_leaf hn, mem_breadthFirst_leaf hn, ihn]

theorem rootName?_bare : rootName? (bare ns) = rootName? ns := by
  induction ns using forest_induction with
  | nil => rfl
  | element name attrs children ns _ _ => rfl
  | leaf n ns hn ihn => rw [bare_leaf hn, rootName?_leaf hn, ihn]

theorem areFlat_bare {r g : Name → Bool} : areFlat r g (bare ns) = areFlat r g ns := by
  induction ns using forest_induction with
  | nil => rfl
  | element name attrs children ns ihc ihn =>
    rw [bare_element, Bool.eq_iff_iff, areFlat_element, areFlat_element, ihc, ihn]
    simp only [mem_breadthFirst_bare]
  | leaf n ns hn ihn => rw [bare_leaf hn, areFlat_leaf hn, ihn]

/-! ## What is read is legal -/

/-- A document whose elements are as `P` says, and whose other nodes can be written and read again. -/
structure Formed (P : Element → Prop) (ns : List Node) : Prop where
  elements : ∀ e ∈ breadthFirst ns, P e
  leaves : ∀ n ∈ leaves ns, n.LegalLeaf

abbrev Legal : List Node → Prop := Formed Element.Legal

section Formed

variable {P Q : Element → Prop}

theorem Formed.mono (h : Formed P ns) (hPQ : ∀ e, P e → Q e) : Formed Q ns :=
  ⟨fun e he => hPQ e (h.elements e he), h.leaves⟩

theorem formed_nil : Formed P [] := ⟨fun _ h => (nomatch h), fun _ h => nomatch h⟩

theorem formed_cons {n : Node} : Formed P (n :: ns) ↔ Formed P [n] ∧ Formed P ns := by
  constructor
  · intro h
    refine ⟨⟨fun e he => h.elements e ?_, fun k hk => h.leaves k ?_⟩,
      ⟨fun e he => h.elements e ?_, fun k hk => h.leaves k ?_⟩⟩
    · exact mem_breadthFirst_cons.2 (.inl ((mem_breadthFirst_cons.1 he).resolve_right (by simp)))
    · exact mem_leaves_cons.2 (.inl ((mem_leaves_cons.1 hk).resolve_right List.not_mem_nil))
    · exact mem_breadthFirst_cons.2 (.inr he)
    · exact mem_leaves_cons.2 (.inr hk)
  · rintro ⟨hn, hns⟩
    refine ⟨fun e he => ?_, fun k hk => ?_⟩
    · rcases mem_breadthFirst_cons.1 he with he | he
      · exact hn.elements e (mem_breadthFirst_cons.2 (.inl he))
      · exact hns.elements e he
    · rcases mem_leaves_cons.1 hk with hk | hk
      · exact hn.leaves k (mem_leaves_cons.2 (.inl hk))
      · exact hns.leaves k hk

theorem formed_iff_forall : Formed P ns ↔ ∀ n ∈ ns, Formed P [n] := by
  induction ns with
  | nil => exact ⟨fun _ _ h => (nomatch h), fun _ => formed_nil⟩
  | cons n ns ih => rw [formed_cons, ih, List.forall_mem_cons]

theorem formed_append {ms : List Node} : Formed P (ns ++ ms) ↔ Formed P ns ∧ Formed P ms := by
  rw [formed_iff_forall, @formed_iff_forall ns, @formed_iff_forall ms, List.forall_mem_append]

theorem formed_reverse : Formed P ns.reverse ↔ Formed P ns := by
  rw [formed_iff_forall, @formed_iff_forall ns]
  simp only [List.mem_reverse]

theorem formed_element :
    Formed P [.element name attrs children] ↔ P ⟨name, attrs⟩ ∧ Formed P children := by
  constructor
  · intro h
    refine ⟨h.elements _ (by simp), fun e he => h.elements e (by simp [he]), fun n hn => ?_⟩
    exact h.leaves n (mem_leaves_cons.2 (.inl hn))
  · rintro ⟨he, hchildren⟩
    refine ⟨fun e' he' => ?_, fun n hn => ?_⟩
    · rcases mem_breadthFirst_element.1 he' with rfl | he' | he'
      · exact he
      · exact hchildren.elements e' he'
      · cases he'
    · exact hchildren.leaves n ((mem_leaves_cons.1 hn).resolve_right List.not_mem_nil)

theorem formed_leaf {n : Node} (h : n.LegalLeaf) : Formed P [n] := by
  refine ⟨fun e he => ?_, fun k hk => ?_⟩
  · rw [mem_breadthFirst_leaf h.isLeaf] at he
    cases he
  · rw [mem_leaves_cons, n.leaves_of_isLeaf h.isLeaf] at hk
    obtain rfl : k = n := by simpa using hk.resolve_right List.not_mem_nil
    exact h

end Formed

theorem legal_of_events? {s : Bytes} {es : List Event} (h : events? s = some es) :
    ∀ ev ∈ es, ev.Legal := by
  induction hlen : s.length using Nat.strongRecOn generalizing s es with
  | _ len ih =>
  rw [events?.eq_def] at h
  split at h
  · cases h
    intro ev hev
    cases hev
  · rename_i c rest
    dsimp only at h
    split at h
    · cases h
    · rename_i evs after hpart
      have hevs : ∀ ev ∈ evs, ev.Legal := by
        split at hpart
        · exact legal_of_markup? hpart
        · obtain ⟨r, -, heq⟩ := Option.map_eq_some_iff.1 hpart
          cases heq
          intro ev hev
          obtain rfl := List.mem_singleton.1 hev
          exact legalLeaf_text _
      split at h
      · rename_i hshort
        obtain ⟨es', hes, rfl⟩ := Option.map_eq_some_iff.1 h
        have hrest := ih after.length (by simp at hlen; omega) hes rfl
        intro ev hev
        exact (List.mem_append.1 hev).elim (hevs ev) (hrest ev)
      · cases h

theorem legal_of_build? {stack : List Frame} {done : List Node} {es : List Event}
    (h : build? stack done es = some ns) (hes : ∀ ev ∈ es, ev.Legal) (hdone : Legal done)
    (hstack : ∀ f ∈ stack, Element.Legal ⟨f.name, f.attrs⟩ ∧ Legal f.before) : Legal ns := by
  induction es generalizing stack done with
  | nil =>
    rw [build?] at h
    split at h
    · cases h
      exact formed_reverse.2 hdone
    · cases h
  | cons ev es ih =>
    have hev := hes ev List.mem_cons_self
    have hrest : ∀ ev ∈ es, ev.Legal := fun ev h => hes ev (List.mem_cons_of_mem _ h)
    cases ev with
    | opened name attrs =>
      refine ih h hrest formed_nil fun f hf => ?_
      rcases List.mem_cons.1 hf with rfl | hf
      · exact ⟨hev, hdone⟩
      · exact hstack f hf
    | leaf n => exact ih h hrest (formed_cons.2 ⟨formed_leaf hev, hdone⟩) hstack
    | closed name =>
      rw [build?.eq_def] at h
      simp only at h
      split at h
      · cases h
      · rename_i frame stack
        split at h
        · obtain ⟨hframe, hbefore⟩ := hstack frame List.mem_cons_self
          refine ih h hrest (formed_cons.2 ⟨?_, hbefore⟩)
            fun f hf => hstack f (List.mem_cons_of_mem _ hf)
          exact formed_element.2 ⟨hframe, formed_reverse.2 hdone⟩
        · cases h

theorem legal_of_parse? {s : Bytes} (h : parse? s = some ns) : Legal ns := by
  obtain ⟨es, hes, hbuild⟩ := Option.bind_eq_some_iff.1 h
  exact legal_of_build? hbuild (legal_of_events? hes) formed_nil fun _ h => nomatch h

/-! ## Trees from tags -/

/-- A part that opens or closes an element. -/
def Event.isTag : Event → Bool
  | .leaf _ => false
  | _ => true

mutual

def Node.tags : Node → List Event
  | .element name attrs children => .opened name attrs :: (tags children ++ [.closed name])
  | _ => []

def tags : List Node → List Event
  | [] => []
  | n :: ns => n.tags ++ tags ns

end

theorem tags_leaf {n : Node} (h : n.isLeaf = true) : tags (n :: ns) = tags ns := by
  cases n <;> first | rfl | cases h

theorem build?_tags (stack : List Frame) (done : List Node) (es : List Event) :
    build? stack done (tags ns ++ es) = build? stack ((bare ns).reverse ++ done) es := by
  induction ns using forest_induction generalizing stack done es with
  | nil => rfl
  | element name attrs children ns ihc ihn =>
    rw [tags, Node.tags]
    simp only [List.cons_append, List.append_assoc, List.nil_append]
    rw [build?, ihc, build?, if_pos rfl, ihn, bare_element]
    simp
  | leaf n ns hn ihn => rw [tags_leaf hn, bare_leaf hn, ihn]

/-- An open element without the other nodes in front of it. -/
def Frame.bare (f : Frame) : Frame := { f with before := Xml.bare f.before }

/-- The elements that are built depend on the tags alone. -/
theorem build?_filter {es : List Event} (hes : ∀ ev ∈ es, ev.Legal) (stack : List Frame)
    (done : List Node) :
    build? (stack.map Frame.bare) (bare done) (es.filter Event.isTag) =
      (build? stack done es).map bare := by
  induction es generalizing stack done with
  | nil =>
    rw [List.filter_nil, build?, build?, List.isEmpty_map]
    split
    · rw [Option.map_some, bare_reverse]
    · rfl
  | cons ev es ih =>
    have hrest := ih fun ev h => hes ev (List.mem_cons_of_mem _ h)
    cases ev with
    | opened name attrs =>
      rw [List.filter_cons_of_pos rfl, build?, build?, ← hrest]
      rfl
    | leaf n =>
      have hn : n.LegalLeaf := hes (.leaf n) List.mem_cons_self
      rw [List.filter_cons_of_neg (by simp [Event.isTag]), build?, ← hrest, bare_leaf hn.isLeaf]
    | closed name =>
      rw [List.filter_cons_of_pos rfl]
      cases stack with
      | nil => rfl
      | cons frame stack =>
        have hframe : frame.bare.name = frame.name := rfl
        rw [List.map_cons, build?, build?, hframe]
        split
        · rw [← hrest]
          simp [Frame.bare, bare_reverse]
        · rfl

/-- Texts with the same tags are read as documents with the same elements. -/
theorem parse?_of_tags {s : Bytes} {es : List Event} (hs : events? s = some es)
    {ms : List Node} (hbuild : build? [] [] (es.filter Event.isTag) = some ms) :
    ∃ ns, parse? s = some ns ∧ bare ns = ms := by
  have hfilter := build?_filter (legal_of_events? hs) [] []
  rw [show bare [] = [] from rfl, List.map_nil, hbuild] at hfilter
  obtain ⟨ns, hns, hms⟩ := Option.map_eq_some_iff.1 hfilter.symm
  refine ⟨ns, ?_, hms⟩
  rw [parse?, hs]
  exact hns

/-! ## Values that were written -/

mutual

/-- A node with the values of its attributes as they are read back. -/
def Node.settled : Node → Node
  | .element name attrs children =>
    .element name (attrs.map Attribute.settled) (settled children)
  | n => n

/-- A document with the values of its attributes as they are read back. -/
def settled : List Node → List Node
  | [] => []
  | n :: ns => n.settled :: settled ns

end

@[simp] theorem settled_element : settled (.element name attrs children :: ns) =
    .element name (attrs.map Attribute.settled) (settled children) :: settled ns := by
  rw [settled, Node.settled]

theorem settled_leaf {n : Node} (h : n.isLeaf = true) : settled (n :: ns) = n :: settled ns := by
  cases n <;> first | rfl | cases h

theorem bare_settled : bare (settled ns) = settled (bare ns) := by
  induction ns using forest_induction with
  | nil => rfl
  | element name attrs children ns ihc ihn =>
    rw [settled_element, bare_element, bare_element, settled_element, ihc, ihn]
  | leaf n ns hn ihn => rw [settled_leaf hn, bare_leaf hn, bare_leaf hn, ihn]

theorem rootName?_settled : rootName? (settled ns) = rootName? ns := by
  induction ns using forest_induction with
  | nil => rfl
  | element name attrs children ns _ _ => rfl
  | leaf n ns hn ihn => rw [settled_leaf hn, rootName?_leaf hn, rootName?_leaf hn, ihn]

theorem mem_breadthFirst_settled {e : Element} : e ∈ breadthFirst (settled ns) ↔
    ∃ e' ∈ breadthFirst ns, e = ⟨e'.name, e'.attrs.map Attribute.settled⟩ := by
  induction ns using forest_induction with
  | nil => simp [settled]
  | element name attrs children ns ihc ihn =>
    rw [settled_element, mem_breadthFirst_element, ihc, ihn]
    simp only [mem_breadthFirst_element, or_and_right, exists_or, exists_eq_left]
  | leaf n ns hn ihn =>
    rw [settled_leaf hn, mem_breadthFirst_leaf hn, ihn]
    simp only [mem_breadthFirst_leaf hn]

def Element.Lasting (e : Element) : Prop := ∀ a ∈ e.attrs, isLegal a.value = true ∧ 0x0D ∉ a.value

theorem Element.Lasting.map_settled {e : Element} (h : e.Lasting) :
    e.attrs.map Attribute.settled = e.attrs := by
  refine (List.map_congr_left fun a ha => ?_).trans (List.map_id _)
  obtain ⟨hlegal, hret⟩ := h a ha
  rw [Attribute.settled, settle_eq_self hlegal hret, id]

/-- A document whose values survive is read back as it was. -/
theorem settled_eq_self (h : ∀ e ∈ breadthFirst ns, e.Lasting) : settled ns = ns := by
  induction ns using forest_induction with
  | nil => rfl
  | element name attrs children ns ihc ihn =>
    have hattrs := (h ⟨name, attrs⟩ (by simp)).map_settled
    rw [settled_element, hattrs, ihc fun e he => h e (by simp [he]), ihn fun e he => h e (by simp [he])]
  | leaf n ns hn ihn => rw [settled_leaf hn, ihn fun e he => h e ((mem_breadthFirst_leaf hn).2 he)]

/-- A document that is legal, with values that survive being written. -/
structure Writable (ns : List Node) : Prop where
  legal : Legal ns
  values : ∀ e ∈ breadthFirst ns, ∀ a ∈ e.attrs, 0x0D ∉ a.value

theorem Writable.settled_eq (h : Writable ns) : settled ns = ns :=
  settled_eq_self fun e he a ha => ⟨((h.legal.elements e he).attrs a ha).value, h.values e he a ha⟩

theorem Writable.formed (h : Writable ns) : Formed Element.Named ns :=
  h.legal.mono fun _ he => he.named

/-! ## Reading what was written -/

theorem events?_markup {r after : Bytes} {evs es : List Event} (h : markup? r = some (evs, after))
    (hlen : after.length ≤ r.length) (hes : events? after = some es) :
    events? ('<'.toUInt8 :: r) = some (evs ++ es) := by
  rw [events?]
  simp only [if_true, h]
  rw [if_pos hlen, hes]
  rfl

/-- A written text in front of markup adds no tags. -/
theorem events?_pieces {ps : List (Bytes × Bytes)} (hps : ∀ p ∈ ps, Piece p.1 p.2) {k : Bytes}
    (hk : Closes .markup k k) {evs : List Event} (h : events? k = some evs) :
    ∃ es, events? (ps.flatMap (·.1) ++ k) = some es ∧
      es.filter Event.isTag = evs.filter Event.isTag := by
  obtain ⟨v, -, htext⟩ := text?_pieces hps
  replace htext := htext hk
  cases hw : ps.flatMap (·.1) with
  | nil => exact ⟨evs, h, rfl⟩
  | cons c w =>
    have hc : c ≠ '<'.toUInt8 := by
      obtain ⟨p, hp, hcp⟩ := List.mem_flatMap.1 (hw ▸ List.mem_cons_self : c ∈ ps.flatMap (·.1))
      exact ((hps p hp).quiet hcp).1
    rw [hw] at htext
    refine ⟨.leaf (.text v) :: evs, ?_, List.filter_cons_of_neg (by simp [Event.isTag])⟩
    rw [List.cons_append] at htext ⊢
    rw [events?]
    simp only [hc, if_false, htext, Option.map_some]
    rw [if_pos (by simp), h]
    rfl

theorem render_element_nil (k : Bytes) :
    (Node.element name attrs []).render ++ k =
      '<'.toUInt8 :: (name.full ++ (attrs.flatMap Attribute.render ++ (tagEnd true ++ k))) := by
  simp only [Node.render, List.isEmpty_nil, if_true, List.append_assoc]
  rfl

theorem render_element (hne : children ≠ []) (k : Bytes) :
    (Node.element name attrs children).render ++ k =
      '<'.toUInt8 :: (name.full ++ (attrs.flatMap Attribute.render ++ (tagEnd false ++
        (renderAll children ++ ('<'.toUInt8 :: 0x2F :: (name.full ++ 0x3E :: k)))))) := by
  have hempty : children.isEmpty = false := by simpa using hne
  simp only [Node.render, hempty, Bool.false_eq_true, if_false, List.append_assoc]
  rfl

/-- What was written is read with the tags it had, after a text `ps` and before what follows. -/
theorem events?_renderAll (h : Formed Element.Named ns) {ps : List (Bytes × Bytes)}
    (hps : ∀ p ∈ ps, Piece p.1 p.2) {k : Bytes} (hk : Closes .markup k k) {evs : List Event}
    (hevs : events? k = some evs) :
    ∃ es, events? (ps.flatMap (·.1) ++ (renderAll ns ++ k)) = some es ∧
      es.filter Event.isTag = tags (settled ns) ++ evs.filter Event.isTag := by
  -- a text joins the texts before it, and markup ends them
  induction ns using forest_induction generalizing ps k evs with
  | nil => exact events?_pieces hps hk hevs
  | element name attrs children ns ihc ihn =>
    obtain ⟨hlegal, hns⟩ := formed_cons.1 h
    obtain ⟨helement, hchildren⟩ := formed_element.1 hlegal
    obtain ⟨es, hes, htags⟩ := ihn hns (List.forall_mem_nil _) hk hevs
    rw [List.flatMap_nil, List.nil_append] at hes
    rw [renderAll, List.append_assoc, settled_element, tags, Node.tags]
    by_cases hempty : children = []
    · subst hempty
      rw [render_element_nil]
      have hopen := events?_markup (markup?_opened helement true (renderAll ns ++ k))
        (by simp; omega) hes
      obtain ⟨es', hes', htags'⟩ := events?_pieces hps (.markup _) hopen
      refine ⟨es', hes', ?_⟩
      rw [htags', if_pos rfl, List.filter_append, htags]
      rfl
    · rw [render_element hempty]
      have hclose := events?_markup (markup?_closed helement.name (renderAll ns ++ k))
        (by simp; omega) hes
      obtain ⟨es₁, hes₁, htags₁⟩ := ihc hchildren (List.forall_mem_nil _) (.markup _) hclose
      rw [List.flatMap_nil, List.nil_append] at hes₁
      have hopen := events?_markup (markup?_opened helement false _) (by simp; omega) hes₁
      obtain ⟨es', hes', htags'⟩ := events?_pieces hps (.markup _) hopen
      refine ⟨es', hes', ?_⟩
      rw [htags', List.filter_append, htags₁, List.filter_append, htags]
      simp only [List.append_assoc, List.cons_append, List.nil_append]
      rfl
  | leaf n ns hn ihn =>
    obtain ⟨hlegal, hns⟩ := formed_cons.1 h
    rw [renderAll, List.append_assoc, settled_leaf hn, tags_leaf hn]
    cases htext : n.isText with
    | true =>
      cases n with
      | text s =>
        obtain ⟨ps', hps', hescape, -⟩ := escape_pieces s
        have hall : ∀ p ∈ ps ++ ps', Piece p.1 p.2 := fun p hp =>
          (List.mem_append.1 hp).elim (hps p) (hps' p)
        obtain ⟨es, hes, htags⟩ := ihn hns hall hk hevs
        rw [List.flatMap_append, ← hescape, List.append_assoc] at hes
        exact ⟨es, hes, htags⟩
      | _ => cases htext
    | false =>
      obtain ⟨es, hes, htags⟩ := ihn hns (List.forall_mem_nil _) hk hevs
      rw [List.flatMap_nil, List.nil_append] at hes
      have hleaf := hlegal.leaves n (mem_leaves_cons.2 (.inl (by simp [n.leaves_of_isLeaf hn])))
      obtain ⟨r, hr, hshort, hmarkup⟩ := hleaf.markup htext (renderAll ns ++ k)
      obtain ⟨es', hes', htags'⟩ := events?_pieces hps (.markup r) (events?_markup hmarkup hshort hes)
      rw [hr]
      refine ⟨es', hes', ?_⟩
      rw [htags', List.filter_append, htags]
      simp [Event.isTag]

theorem parse?_renderAll (h : Formed Element.Named ns) {ps : List (Bytes × Bytes)}
    (hps : ∀ p ∈ ps, Piece p.1 p.2) :
    ∃ ns', parse? (ps.flatMap (·.1) ++ renderAll ns) = some ns' ∧ bare ns' = bare (settled ns) := by
  obtain ⟨es, hes, htags⟩ := events?_renderAll h hps .last (by rw [events?])
  rw [List.append_nil] at hes
  refine parse?_of_tags hes ?_
  rw [htags, build?_tags]
  simp [build?]

/-! ## Layout -/

theorem Node.isLeaf_of_isText {n : Node} (h : n.isText = true) : n.isLeaf = true := by
  cases n <;> first | rfl | cases h

/-- Children are laid out one after the other, with texts between them. -/
theorem layoutAll_cons (depth : Nat) (started : Bool) (n : Node) :
    ∃ front back started', (∀ k ∈ front ++ back, k.isText = true) ∧
      (layoutAll depth started (n :: ns) = layoutAll depth started ns ∧ n.isText = true ∨
        layoutAll depth started (n :: ns) =
          front ++ n.layout (depth + 1) :: back ++ layoutAll depth started' ns) := by
  by_cases hblank : n.isBlankText = true
  · refine ⟨[], [], started, by simp, .inl ⟨by rw [layoutAll, if_pos hblank], ?_⟩⟩
    cases n <;> first | rfl | cases hblank
  · rw [layoutAll, if_neg hblank]
    refine ⟨_, _, _, fun k hk => ?_, .inr rfl⟩
    rcases List.mem_append.1 hk with hk | hk <;> split at hk <;>
      first | (obtain rfl := List.mem_singleton.1 hk; rfl) | cases hk

theorem bare_texts {ts : List Node} (h : ∀ n ∈ ts, n.isText = true) : bare ts = [] := by
  induction ts with
  | nil => rfl
  | cons t ts ih =>
    rw [bare_leaf (t.isLeaf_of_isText (h t List.mem_cons_self)),
      ih fun n hn => h n (List.mem_cons_of_mem _ hn)]

theorem bare_layoutAll (depth : Nat) (started : Bool) :
    bare (layoutAll depth started ns) = bare ns := by
  induction ns using forest_induction generalizing depth started with
  | nil => rfl
  | element name attrs children ns ihc ihn =>
    obtain ⟨front, back, started', htexts, ⟨-, htext⟩ | hlayout⟩ :=
      @layoutAll_cons ns depth started (.element name attrs children)
    · cases htext
    · rw [hlayout, bare_append, List.append_cons, bare_append, bare_append,
        bare_texts fun n hn => htexts n (List.mem_append_left _ hn),
        bare_texts fun n hn => htexts n (List.mem_append_right _ hn), ihn, Node.layout, bare_element,
        ihc]
      rfl
  | leaf n ns hn ihn =>
    have hnode : n.layout (depth + 1) = n := by cases n <;> first | rfl | cases hn
    rw [bare_leaf hn]
    obtain ⟨front, back, started', htexts, ⟨hlayout, -⟩ | hlayout⟩ :=
      @layoutAll_cons ns depth started n
    · rw [hlayout, ihn]
    · rw [hlayout, hnode, bare_append, List.append_cons, bare_append, bare_append,
        bare_texts fun n hn => htexts n (List.mem_append_left _ hn),
        bare_texts fun n hn => htexts n (List.mem_append_right _ hn), ihn, bare_leaf hn]
      rfl

theorem formed_texts {P : Element → Prop} {ts : List Node} (h : ∀ n ∈ ts, n.isText = true) :
    Formed P ts := by
  refine formed_iff_forall.2 fun n hn => formed_leaf ?_
  have htext := h n hn
  cases n <;> first | exact legalLeaf_text _ | cases htext

theorem formed_layoutAll {P : Element → Prop} (h : Formed P ns) (depth : Nat) (started : Bool) :
    Formed P (layoutAll depth started ns) := by
  -- whatever is laid out stands between texts
  have hbetween : ∀ {n : Node} {ns : List Node} {depth started}, Formed P [n.layout (depth + 1)] →
      (∀ started', Formed P (layoutAll depth started' ns)) →
        Formed P (layoutAll depth started (n :: ns)) := by
    intro n ns depth started hn hns
    obtain ⟨front, back, started', htexts, ⟨hlayout, -⟩ | hlayout⟩ := layoutAll_cons depth started n
    · rw [hlayout]
      exact hns started
    · rw [hlayout, formed_append, List.append_cons, formed_append, formed_append]
      exact ⟨⟨⟨formed_texts fun n hn => htexts n (List.mem_append_left _ hn), hn⟩,
        formed_texts fun n hn => htexts n (List.mem_append_right _ hn)⟩, hns started'⟩
  induction ns using forest_induction generalizing depth started with
  | nil => exact formed_nil
  | element name attrs children ns ihc ihn =>
    obtain ⟨hn, hns⟩ := formed_cons.1 h
    obtain ⟨helement, hchildren⟩ := formed_element.1 hn
    exact hbetween (formed_element.2 ⟨helement, ihc hchildren _ _⟩) (ihn hns depth)
  | leaf n ns hn ihn =>
    have hnode : n.layout (depth + 1) = n := by cases n <;> first | rfl | cases hn
    obtain ⟨hlegal, hns⟩ := formed_cons.1 h
    exact hbetween (hnode.symm ▸ hlegal) (ihn hns depth)

/-- **A document that is saved is read back with the same elements**, and with values as they are read
back. -/
theorem parse?_save (h : Formed Element.Named ns) :
    ∃ ns', parse? (save ns) = some ns' ∧ bare ns' = bare (settled ns) := by
  obtain ⟨ns', hread, hbare⟩ := parse?_renderAll (formed_layoutAll h _ _) (List.forall_mem_nil _)
  exact ⟨ns', hread, by rw [hbare, bare_settled, bare_layoutAll, ← bare_settled]⟩

/-! ## A mark in front -/

/-- A document that is written with a character beyond ASCII in front begins with a text, and what
follows that character is a written text and nodes with the same elements. -/
theorem renderAll_high (h : Formed Element.Named ns) {u r : Bytes} {n : Nat} (hu : Utf8.Encodes u n)
    (hhigh : ∀ c ∈ u, 0x80 ≤ c) (hr : renderAll ns = u ++ r) :
    ∃ (ps : List (Bytes × Bytes)) (ms : List Node), (∀ p ∈ ps, Piece p.1 p.2) ∧
      r = ps.flatMap (·.1) ++ renderAll ms ∧ Formed Element.Named ms ∧ bare ms = bare ns := by
  obtain ⟨c, u', rfl⟩ := List.exists_cons_of_ne_nil hu.ne_nil
  have hc := hhigh c List.mem_cons_self
  -- markup does not begin so
  have hmarkup : ∀ {k k' : Bytes}, k = '<'.toUInt8 :: k' → k ≠ c :: u' ++ r := by
    rintro _ k' rfl heq
    rw [List.cons_append] at heq
    rw [← (List.cons.inj heq).1] at hc
    exact absurd hc (by decide)
  induction ns with
  | nil => cases hr
  | cons k ns ih =>
    obtain ⟨hk, hns⟩ := formed_cons.1 h
    rw [renderAll] at hr
    cases hleaf : k.isLeaf with
    | false =>
      cases k with
      | element name attrs children =>
        by_cases hempty : children = []
        · subst hempty
          exact absurd hr (hmarkup (render_element_nil _))
        · exact absurd hr (hmarkup (render_element hempty _))
      | _ => cases hleaf
    | true =>
      rw [bare_leaf hleaf]
      cases htext : k.isText with
      | false =>
        have hlegal := hk.leaves k (mem_leaves_cons.2 (.inl (by simp [k.leaves_of_isLeaf hleaf])))
        obtain ⟨k', hk', -⟩ := hlegal.markup htext (renderAll ns)
        exact absurd hr (hmarkup hk')
      | true =>
        cases k with
        | text s =>
          rw [Node.render] at hr
          obtain ⟨ps, hps, hescape, -⟩ := escape_pieces s
          rw [hescape] at hr
          cases ps with
          | nil => exact ih hns hr
          | cons p ps =>
            rw [List.flatMap_cons, List.append_assoc] at hr
            refine ⟨ps, ns, fun q hq => hps q (List.mem_cons_of_mem _ hq), ?_, hns, rfl⟩
            obtain ⟨w, v⟩ := p
            cases hps _ List.mem_cons_self with
            | entity hname =>
              rw [← (List.cons.inj hr).1] at hc
              exact absurd hc (by decide)
            | plain hw hchar hspecial =>
              have hlength : w.length = (c :: u').length := by
                have hdecode := hw.decode? (ps.flatMap (·.1) ++ renderAll ns)
                rw [hr, hu.decode?] at hdecode
                simpa using (congrArg (Option.map Prod.snd) hdecode).symm
              exact (List.append_inj hr hlength).2.symm
            | ret =>
              rw [← (List.cons.inj hr).1] at hc
              exact absurd hc (by decide)
        | _ => cases htext

/-- A saved document that begins with a character beyond ASCII can be read without it. -/
theorem parse?_save_high (h : Formed Element.Named ns) {u r : Bytes} {n : Nat} (hu : Utf8.Encodes u n)
    (hhigh : ∀ c ∈ u, 0x80 ≤ c) (hr : save ns = u ++ r) :
    ∃ ns', parse? r = some ns' ∧ bare ns' = bare (settled ns) := by
  obtain ⟨ps, ms, hps, rfl, hms, hbare⟩ := renderAll_high (formed_layoutAll h _ _) hu hhigh hr
  obtain ⟨ns', hread, hbare'⟩ := parse?_renderAll hms hps
  refine ⟨ns', hread, ?_⟩
  rw [hbare', bare_settled, hbare, bare_layoutAll, ← bare_settled]

end Flowsmith.Xml
