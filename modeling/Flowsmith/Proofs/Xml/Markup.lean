import Flowsmith.Proofs.Xml.Escape
import Flowsmith.Proofs.Xml.Forest
import Mathlib.Data.List.TakeWhile

/-!
# Markup is read back

What the reader takes from markup has a form that the writer writes and the reader takes again: names,
attributes with legal values, comments, instructions and directives.

* `Name.Written`, `Attribute.Legal`, `Element.Legal`, `Node.LegalLeaf` : the forms;
* `markup?_opened`, `markup?_closed`, `legalLeaf_text` : what was written is read as what it was;
* `legal_of_markup?` : everything that is read has one of the forms.
-/

namespace Flowsmith

namespace Bytes

/-- The first occurrence is known from the text before it. -/
theorem indexOf?_take {needle s : Bytes} {i : Nat} (h : indexOf? needle s = some i) :
    s = s.take i ++ needle ++ s.drop (i + needle.length) ∧ i ≤ s.length ∧
      ∀ rest, indexOf? needle (s.take i ++ needle ++ rest) = some i := by
  have here : ∀ rest, indexOf? needle (needle ++ rest) = some 0 := by
    intro rest
    cases hn : needle ++ rest with
    | nil =>
      obtain ⟨rfl, -⟩ := List.append_eq_nil_iff.1 hn
      rfl
    | cons c t =>
      have hpre : needle.isPrefixOf (c :: t) = true := by
        rw [List.isPrefixOf_iff_prefix, ← hn]
        exact List.prefix_append _ _
      rw [indexOf?, if_pos hpre]
  induction s generalizing i with
  | nil =>
    rw [indexOf?] at h
    split at h
    · rename_i hnil
      cases h
      obtain rfl := List.isEmpty_iff.1 hnil
      exact ⟨rfl, Nat.le_refl _, here⟩
    · cases h
  | cons c s ih =>
    rw [indexOf?] at h
    split at h
    · rename_i hpre
      cases h
      rw [List.isPrefixOf_iff_prefix] at hpre
      obtain ⟨t, ht⟩ := hpre
      refine ⟨?_, Nat.zero_le _, here⟩
      rw [← ht]
      simp
    · rename_i hpre
      obtain ⟨j, hj, rfl⟩ := Option.map_eq_some_iff.1 h
      obtain ⟨hs, hle, hagain⟩ := ih hj
      have hdrop : (c :: s).drop (j + 1 + needle.length) = s.drop (j + needle.length) := by
        rw [Nat.add_right_comm, List.drop_succ_cons]
      refine ⟨?_, Nat.succ_le_succ hle, fun rest => ?_⟩
      · rw [hdrop, List.take_succ_cons, List.cons_append, List.cons_append, ← hs]
      · rw [List.take_succ_cons, List.cons_append, List.cons_append, indexOf?, if_neg, hagain rest]
        · rfl
        -- an earlier occurrence would lie in what comes before the end of this one
        intro hearly
        rw [List.isPrefixOf_iff_prefix] at hearly hpre
        refine hpre ?_
        have hlong : needle <+: c :: (s.take j ++ needle) := by
          refine List.prefix_of_prefix_length_le hearly ?_ (by simp; omega)
          rw [← List.cons_append, ← List.cons_append]
          exact List.prefix_append _ _
        refine hlong.trans ?_
        rw [List.prefix_cons_inj]
        conv => rhs; rw [hs]
        exact List.prefix_append _ _

/-- A cut at the first occurrence of a text is made again where the text and anything follow. -/
theorem cut?_again {needle s a b : Bytes} (h : cut? s needle = some (a, b)) :
    s = a ++ needle ++ b ∧ ∀ rest, cut? (a ++ needle ++ rest) needle = some (a, rest) := by
  obtain ⟨i, hi, heq⟩ := Option.map_eq_some_iff.1 h
  obtain ⟨rfl, rfl⟩ := Prod.mk.inj heq
  obtain ⟨hs, hle, hagain⟩ := indexOf?_take hi
  refine ⟨hs, fun rest => ?_⟩
  rw [cut?, hagain rest]
  have hlen : (s.take i).length = i := by simp [hle]
  simp only [Option.map_some, List.append_assoc]
  rw [List.take_left' hlen, ← List.append_assoc, List.drop_left' (by simp [hle])]

end Bytes

namespace Xml

/-! ## Names -/

/-- A name as the reader takes it. -/
structure IsWord (w : Bytes) : Prop where
  isName : isName w = true
  bytes : ∀ c ∈ w, isNameByte c = true

theorem IsWord.ne_nil {w : Bytes} (h : IsWord w) : w ≠ [] := by
  rintro rfl
  exact absurd h.isName (by decide)

def Breaks (s : Bytes) : Prop := ∃ c rest, s = c :: rest ∧ isNameByte c = false

theorem takeWhile_word {w k : Bytes} (h : ∀ c ∈ w, isNameByte c = true) (hk : Breaks k) :
    (w ++ k).takeWhile isNameByte = w ∧ (w ++ k).dropWhile isNameByte = k := by
  obtain ⟨c, rest, rfl, hc⟩ := hk
  rw [List.takeWhile_append_of_pos h, List.dropWhile_append_of_pos h,
    List.takeWhile_cons_of_neg (by simp [hc]), List.dropWhile_cons_of_neg (by simp [hc]),
    List.append_nil]
  exact ⟨rfl, rfl⟩

theorem word?_append {w k : Bytes} (h : IsWord w) (hk : Breaks k) : word? (w ++ k) = some (w, k) := by
  obtain ⟨htake, hdrop⟩ := takeWhile_word h.bytes hk
  have hne : k.isEmpty = false := by
    obtain ⟨c, rest, rfl, -⟩ := hk
    rfl
  rw [word?, htake, hdrop, h.isName, hne]
  rfl

theorem isWord_of_word? {s w rest : Bytes} (h : word? s = some (w, rest)) : IsWord w := by
  unfold word? at h
  simp only [Bool.and_eq_true, Bool.not_eq_true', Option.ite_none_right_eq_some, Option.some.injEq,
    Prod.mk.injEq] at h
  obtain ⟨⟨hname, -⟩, rfl, -⟩ := h
  exact ⟨hname, fun c hc => List.mem_takeWhile_imp hc⟩

/-- A name that is read again from how it is written. -/
structure Name.Written (n : Name) : Prop where
  word : IsWord n.full
  split : Name.split? n.full = some n

theorem Name.full_of_split? {s : Bytes} {n : Name} (h : Name.split? s = some n) : n.full = s := by
  unfold Name.split? at h
  split at h
  · cases h
  · dsimp only at h
    split at h
    · cases h
      rfl
    · rename_i hparts
      cases h
      simp only [Bool.or_eq_true, not_or, Bool.not_eq_true] at hparts
      rw [Name.full, if_neg (by simp [hparts.1])]
      -- what is dropped with the prefix is the colon
      have hsplit := List.takeWhile_append_dropWhile (p := fun c : UInt8 => c != 0x3A) (l := s)
      cases hdrop : s.dropWhile (· != 0x3A) with
      | nil =>
        rw [hdrop] at hparts
        simp at hparts
      | cons c rest =>
        have hc : c = 0x3A := by
          have := List.head?_dropWhile_not (fun c : UInt8 => c != 0x3A) s
          rw [hdrop] at this
          simpa using this
        rw [hdrop, hc] at hsplit
        simpa using hsplit

theorem Name.Written.of_split {s : Bytes} {n : Name} (hs : IsWord s) (h : Name.split? s = some n) :
    n.Written := by
  have hfull := Name.full_of_split? h
  exact ⟨hfull.symm ▸ hs, by rw [hfull, h]⟩

theorem written_of_name? {s rest : Bytes} {n : Name} (h : name? s = some (n, rest)) : n.Written := by
  unfold name? at h
  obtain ⟨⟨w, r⟩, hword, h⟩ := Option.bind_eq_some_iff.1 h
  obtain ⟨n', hsplit, h⟩ := Option.bind_eq_some_iff.1 h
  cases h
  exact .of_split (isWord_of_word? hword) hsplit

theorem name?_append {n : Name} (h : n.Written) {k : Bytes} (hk : Breaks k) :
    name? (n.full ++ k) = some (n, k) := by
  rw [name?, word?_append h.word hk]
  simp [h.split]

/-- A word begins with a byte of a name, which is no mark of the markup. -/
theorem IsWord.exists_cons {w : Bytes} (h : IsWord w) :
    ∃ c t, w = c :: t ∧ isNameByte c = true := by
  cases w with
  | nil => exact absurd rfl h.ne_nil
  | cons c t => exact ⟨c, t, rfl, h.bytes c List.mem_cons_self⟩

theorem skipBlanks_word {w : Bytes} (h : IsWord w) (k : Bytes) : skipBlanks (w ++ k) = w ++ k := by
  obtain ⟨c, t, rfl, hc⟩ := h.exists_cons
  refine List.dropWhile_cons_of_neg ?_
  intro hblank
  have : ∀ d : UInt8, isBlank d = true → isNameByte d = false := by
    intro d hd
    simp only [isBlank, Bool.or_eq_true, beq_iff_eq] at hd
    rcases hd with ((rfl | rfl) | rfl) | rfl <;> decide
  rw [this c hblank] at hc
  cases hc

/-! ## Attributes -/

structure Attribute.Legal (a : Attribute) : Prop where
  name : a.name.Written
  value : isLegal a.value = true

def Attribute.settled (a : Attribute) : Attribute := { a with value := settle a.value }

theorem attribute?_append {a : Attribute} (h : a.name.Written) (k : Bytes) :
    attribute? (a.name.full ++ (("=\"" : Bytes) ++ (escape a.value ++ '"'.toUInt8 :: k))) =
      some (a.settled, k) := by
  have hbreaks : Breaks (("=\"" : Bytes) ++ (escape a.value ++ '"'.toUInt8 :: k)) :=
    ⟨0x3D, _, rfl, by decide⟩
  rw [attribute?, name?_append h hbreaks]
  have hread := text?_escape a.value k
  have heq : skipBlanks (("=\"" : Bytes) ++ (escape a.value ++ '"'.toUInt8 :: k)) =
      0x3D :: '"'.toUInt8 :: (escape a.value ++ '"'.toUInt8 :: k) := rfl
  have hquote : skipBlanks ('"'.toUInt8 :: (escape a.value ++ '"'.toUInt8 :: k)) =
      '"'.toUInt8 :: (escape a.value ++ '"'.toUInt8 :: k) := rfl
  simp only [Option.bind_eq_bind, Option.bind_some, heq, hquote, true_or, if_true, hread]
  rfl

theorem legal_of_attribute? {s rest : Bytes} {a : Attribute} (h : attribute? s = some (a, rest)) :
    a.Legal := by
  unfold attribute? at h
  obtain ⟨⟨name, r⟩, hname, h⟩ := Option.bind_eq_some_iff.1 h
  simp only at h
  split at h
  · split at h
    · split at h
      · obtain ⟨⟨value, r'⟩, htext, h⟩ := Option.bind_eq_some_iff.1 h
        cases h
        refine ⟨written_of_name? hname, ?_⟩
        unfold text? at htext
        obtain ⟨⟨v, t⟩, -, htext⟩ := Option.bind_eq_some_iff.1 htext
        simp only at htext
        split at htext
        · rename_i hlegal
          cases htext
          exact hlegal
        · cases htext
      · cases h
    · cases h
  · cases h

/-- An element that can be written and read again: its attributes differ in their names. -/
structure Element.Named (e : Element) : Prop where
  name : e.name.Written
  attrs : ∀ a ∈ e.attrs, a.name.Written
  unique : (e.attrs.map (·.name)).Nodup

structure Element.Legal (e : Element) : Prop where
  name : e.name.Written
  attrs : ∀ a ∈ e.attrs, a.Legal
  unique : (e.attrs.map (·.name)).Nodup

theorem Element.Legal.named {e : Element} (h : e.Legal) : e.Named :=
  ⟨h.name, fun a ha => (h.attrs a ha).name, h.unique⟩

theorem setAttribute_new {attrs : List Attribute} {a : Attribute}
    (h : a.name ∉ attrs.map (·.name)) : setAttribute attrs a = attrs ++ [a] := by
  rw [setAttribute, if_neg]
  simpa using fun b hb hab => h (List.mem_map.2 ⟨b, hb, hab⟩)

def tagEnd (closed : Bool) : Bytes := if closed then "/>" else ">"

/-- Attributes are read up to the end of their tag, after those that were read before. -/
theorem attributes?_append {attrs acc : List Attribute} (hattrs : ∀ a ∈ attrs, a.name.Written)
    (hunique : ((acc ++ attrs).map (·.name)).Nodup) (closed : Bool) (k : Bytes) :
    attributes? acc (attrs.flatMap Attribute.render ++ (tagEnd closed ++ k)) =
      some (acc ++ attrs.map Attribute.settled, closed, k) := by
  induction attrs generalizing acc with
  | nil =>
    rw [List.flatMap_nil, List.nil_append, attributes?, List.map_nil, List.append_nil]
    cases closed with
    | true =>
      have hskip : skipBlanks (tagEnd true ++ k) = 0x2F :: 0x3E :: k := rfl
      simp only [hskip]
    | false =>
      have hskip : skipBlanks (tagEnd false ++ k) = 0x3E :: k := rfl
      simp only [hskip]
  | cons a attrs ih =>
    have ha := hattrs a List.mem_cons_self
    have hnew : a.settled.name ∉ acc.map (·.name) := by
      rw [List.map_append, List.nodup_append] at hunique
      exact fun hmem => hunique.2.2 _ hmem _ List.mem_cons_self rfl
    have hunique' : ((acc ++ [a.settled] ++ attrs).map (·.name)).Nodup := by
      simpa [Attribute.settled] using hunique
    have hrest := ih (fun b hb => hattrs b (List.mem_cons_of_mem _ hb)) hunique'
    generalize hend : attrs.flatMap Attribute.render ++ (tagEnd closed ++ k) = after at hrest
    have hread := attribute?_append ha after
    have htext : (a :: attrs).flatMap Attribute.render ++ (tagEnd closed ++ k) =
        0x20 :: (a.name.full ++ (("=\"" : Bytes) ++ (escape a.value ++ '"'.toUInt8 :: after))) := by
      rw [List.flatMap_cons, List.append_assoc, hend]
      simp only [Attribute.render, List.append_assoc, List.cons_append, List.nil_append]
      rfl
    have hskip : skipBlanks (0x20 :: (a.name.full ++
        (("=\"" : Bytes) ++ (escape a.value ++ '"'.toUInt8 :: after)))) =
          a.name.full ++ (("=\"" : Bytes) ++ (escape a.value ++ '"'.toUInt8 :: after)) :=
      skipBlanks_word ha.word _
    obtain ⟨c, t, hc, hbyte⟩ := ha.word.exists_cons
    have hslash : c ≠ 0x2F := by rintro rfl; exact absurd hbyte (by decide)
    have hclose : c ≠ 0x3E := by rintro rfl; exact absurd hbyte (by decide)
    rw [htext, attributes?, hskip]
    split
    · rename_i heq
      rw [hc] at heq
      exact absurd (List.cons.inj heq).1 hslash
    · rename_i heq
      rw [hc] at heq
      exact absurd (List.cons.inj heq).1 hclose
    · rw [hread]
      simp only
      rw [if_pos (by simp; omega), setAttribute_new hnew, hrest]
      simp

theorem names_setAttribute {attrs : List Attribute} {a : Attribute}
    (h : (attrs.map (·.name)).Nodup) : ((setAttribute attrs a).map (·.name)).Nodup := by
  rw [setAttribute]
  split
  · have hsame : (attrs.map fun b => if b.name == a.name then { b with value := a.value } else b).map
        (·.name) = attrs.map (·.name) := by
      rw [List.map_map]
      refine List.map_congr_left fun b _ => ?_
      simp only [Function.comp]
      split <;> rfl
    rw [hsame]
    exact h
  · rename_i hnew
    rw [List.map_append, List.nodup_append]
    refine ⟨h, by simp, ?_⟩
    rintro n hn m hm rfl
    obtain ⟨b, hb, rfl⟩ := List.mem_map.1 hn
    refine hnew (List.any_eq_true.2 ⟨b, hb, ?_⟩)
    simpa using List.mem_singleton.1 hm

theorem legal_setAttribute {attrs : List Attribute} {a : Attribute} (hattrs : ∀ b ∈ attrs, b.Legal)
    (ha : a.Legal) : ∀ b ∈ setAttribute attrs a, b.Legal := by
  intro b hb
  rw [setAttribute] at hb
  split at hb
  · obtain ⟨c, hc, rfl⟩ := List.mem_map.1 hb
    split
    · exact ⟨(hattrs c hc).name, ha.value⟩
    · exact hattrs c hc
  · rcases List.mem_append.1 hb with hb | hb
    · exact hattrs b hb
    · obtain rfl := List.mem_singleton.1 hb
      exact ha

theorem legal_of_attributes? {acc attrs : List Attribute} {s rest : Bytes} {closed : Bool}
    (h : attributes? acc s = some (attrs, closed, rest)) (hacc : ∀ a ∈ acc, a.Legal)
    (hunique : (acc.map (·.name)).Nodup) :
    (∀ a ∈ attrs, a.Legal) ∧ (attrs.map (·.name)).Nodup := by
  induction hlen : s.length using Nat.strongRecOn generalizing s acc with
  | _ len ih =>
  rw [attributes?] at h
  split at h
  · cases h
    exact ⟨hacc, hunique⟩
  · cases h
    exact ⟨hacc, hunique⟩
  · split at h
    · cases h
    · rename_i a after hread
      split at h
      · rename_i hshort
        exact ih after.length (hlen ▸ hshort) h
          (legal_setAttribute hacc (legal_of_attribute? hread)) (names_setAttribute hunique) rfl
      · cases h

/-! ## Tags -/

theorem markup?_word {w : Bytes} (h : IsWord w) (k : Bytes) :
    markup? (w ++ k) = do
      let (name, rest) ← name? (w ++ k)
      let (attrs, closed, rest) ← attributes? [] rest
      return (.opened name attrs :: (if closed then [.closed name] else []), rest) := by
  obtain ⟨c, t, rfl, hc⟩ := h.exists_cons
  have hne : ∀ d : UInt8, isNameByte d = false → c ≠ d := by
    rintro d hd rfl
    rw [hd] at hc
    cases hc
  rw [List.cons_append, markup?.eq_def]
  split
  · rename_i heq
    exact absurd (List.cons.inj heq).1 (hne 0x2F (by decide))
  · rename_i heq
    exact absurd (List.cons.inj heq).1 (hne 0x3F (by decide))
  · rename_i heq
    exact absurd (List.cons.inj heq).1 (hne 0x21 (by decide))
  · rename_i heq
    exact absurd (List.cons.inj heq).1 (hne 0x21 (by decide))
  · rename_i heq
    exact absurd (List.cons.inj heq).1 (hne 0x21 (by decide))
  · rfl

theorem breaks_attrs (attrs : List Attribute) (closed : Bool) (k : Bytes) :
    Breaks (attrs.flatMap Attribute.render ++ (tagEnd closed ++ k)) := by
  cases attrs with
  | nil => cases closed <;> exact ⟨_, _, rfl, by decide⟩
  | cons a attrs => exact ⟨0x20, _, rfl, by decide⟩

/-- A start tag is read as what was written, with values as they are read. -/
theorem markup?_opened {e : Element} (h : e.Named) (closed : Bool) (k : Bytes) :
    markup? (e.name.full ++ (e.attrs.flatMap Attribute.render ++ (tagEnd closed ++ k))) =
      some (.opened e.name (e.attrs.map Attribute.settled) ::
        (if closed then [.closed e.name] else []), k) := by
  rw [markup?_word h.name.word, name?_append h.name (breaks_attrs _ _ _)]
  have hattrs := @attributes?_append e.attrs [] h.attrs h.unique closed k
  rw [List.nil_append] at hattrs
  simp [hattrs]

theorem markup?_closed {n : Name} (h : n.Written) (k : Bytes) :
    markup? (0x2F :: (n.full ++ 0x3E :: k)) = some ([.closed n], k) := by
  have hbreaks : Breaks (0x3E :: k) := ⟨0x3E, k, rfl, by decide⟩
  have hskip : skipBlanks (0x3E :: k) = 0x3E :: k := rfl
  rw [markup?, name?_append h hbreaks]
  simp [hskip]

/-! ## Other nodes -/

/-- A node that is no element and that is read again, where anything follows it. A text needs no more:
it may be read in parts, or with its neighbours. -/
structure Node.LegalLeaf (n : Node) : Prop where
  isLeaf : n.isLeaf = true
  markup : n.isText = false →
    ∀ k, ∃ r, n.render ++ k = '<'.toUInt8 :: r ∧ k.length ≤ r.length ∧ markup? r = some ([.leaf n], k)

theorem legalLeaf_text (s : Bytes) : (Node.text s).LegalLeaf := ⟨rfl, fun h => nomatch h⟩

theorem legalLeaf_comment {s content rest : Bytes} (h : Bytes.cut? s "--" = some (content, rest)) :
    (Node.comment content).LegalLeaf := by
  refine ⟨rfl, fun _ k => ⟨0x21 :: 0x2D :: 0x2D :: (content ++ ("--" : Bytes) ++ 0x3E :: k), ?_, ?_, ?_⟩⟩
  · simp only [Node.render, List.append_assoc]
    rfl
  · simp
    omega
  · have hcut := (Bytes.cut?_again h).2 (0x3E :: k)
    rw [markup?]
    simp only [hcut, Option.bind_eq_bind, Option.bind_some]

theorem head?_skipBlanks {s t rest : Bytes} {c : UInt8} (h : skipBlanks s = c :: t ++ rest) :
    isBlank c = false := by
  have hhead := List.head?_dropWhile_not isBlank s
  rw [show s.dropWhile isBlank = c :: t ++ rest from h] at hhead
  simpa using hhead

theorem legalLeaf_instruction {s content rest target : Bytes} (hword : IsWord target)
    (h : Bytes.cut? (skipBlanks s) "?>" = some (content, rest))
    (hread : isReadable target content = true) : (Node.instruction target content).LegalLeaf := by
  obtain ⟨hs, hagain⟩ := Bytes.cut?_again h
  have hmark : ("?>" : Bytes) = [0x3F, 0x3E] := by decide
  refine ⟨rfl, fun _ k => ?_⟩
  cases content with
  | nil =>
    refine ⟨0x3F :: (target ++ (("?>" : Bytes) ++ k)), ?_, ?_, ?_⟩
    · simp only [Node.render, List.append_assoc]
      rfl
    · simp
      omega
    · have hbreaks : Breaks (("?>" : Bytes) ++ k) := ⟨0x3F, _, rfl, by decide⟩
      have hskip : skipBlanks (("?>" : Bytes) ++ k) = [] ++ ("?>" : Bytes) ++ k := rfl
      rw [markup?, word?_append hword hbreaks]
      simp only [Option.bind_eq_bind, Option.bind_some, hskip, hagain k, hread, if_true]
  | cons c t =>
    refine ⟨0x3F :: (target ++ (0x20 :: (c :: t ++ ("?>" : Bytes) ++ k))), ?_, ?_, ?_⟩
    · simp only [Node.render, List.append_assoc]
      rfl
    · simp
      omega
    · have hblank := head?_skipBlanks (List.append_assoc _ _ _ ▸ hs)
      have hbreaks : Breaks (0x20 :: (c :: t ++ ("?>" : Bytes) ++ k)) := ⟨0x20, _, rfl, by decide⟩
      have hskip : skipBlanks (0x20 :: (c :: t ++ ("?>" : Bytes) ++ k)) =
          c :: t ++ ("?>" : Bytes) ++ k := by
        rw [skipBlanks, List.dropWhile_cons_of_pos (by decide)]
        exact List.dropWhile_cons_of_neg (by simp [hblank])
      rw [markup?, word?_append hword hbreaks]
      simp only [Option.bind_eq_bind, Option.bind_some, hskip, hagain k, hread, if_true]

/-! ## Directives -/

/-- The quote and the depth of brackets after a byte of a directive that is kept. -/
def directiveNext (quote : Option UInt8) (depth : Nat) (c : UInt8) : Option UInt8 × Nat :=
  if quote = some c then (none, depth)
  else if quote.isSome then (quote, depth)
  else if c = '\''.toUInt8 ∨ c = '"'.toUInt8 then (some c, depth)
  else if c = '>'.toUInt8 then (none, depth - 1)
  else if c = '<'.toUInt8 then (none, depth + 1)
  else (none, depth)

theorem directive?_end (s : Bytes) : directive? none 0 ('>'.toUInt8 :: s) = some ([], s) := by
  rw [directive?]
  simp

/-- A byte that neither ends a directive nor begins a comment is kept. -/
theorem directive?_keep {quote : Option UInt8} {depth : Nat} {c : UInt8} {s : Bytes}
    (hend : ¬(quote = none ∧ c = '>'.toUInt8 ∧ depth = 0))
    (hcomment : quote = none → c = '<'.toUInt8 → Bytes.dropStart? s "!--" = none) :
    directive? quote depth (c :: s) =
      (directive? (directiveNext quote depth c).1 (directiveNext quote depth c).2 s).map
        fun r => (c :: r.1, r.2) := by
  rw [directive?]
  simp only [hend, if_false, directiveNext]
  split
  · rfl
  split
  · rfl
  rename_i hquote
  have hquote : quote = none := by simpa using hquote
  subst hquote
  split
  · rfl
  split
  · rfl
  split
  · rename_i hopen
    rw [hcomment rfl hopen]
  · rfl

theorem directive?_comment {depth : Nat} {s inner : Bytes} {r : Bytes × Bytes}
    (hcomment : Bytes.dropStart? s "!--" = some inner)
    (h : directive? none depth ('<'.toUInt8 :: s) = some r) :
    ∃ after t, after.length < s.length ∧ directive? none depth after = some (t, r.2) ∧
      r.1 = 0x20 :: t := by
  have h₁ : ('<'.toUInt8 = '>'.toUInt8) = False := by decide
  have h₂ : ('<'.toUInt8 = '\''.toUInt8 ∨ '<'.toUInt8 = '"'.toUInt8) = False := by decide
  rw [directive?] at h
  simp only [h₁, h₂, false_and, and_false, if_false, reduceCtorEq, Option.isSome_none,
    Bool.false_eq_true, if_true, hcomment] at h
  split at h
  · cases h
  · rename_i after _
    split at h
    · rename_i hshort
      obtain ⟨r', hr', rfl⟩ := Option.map_eq_some_iff.1 h
      exact ⟨after, r'.1, hshort, hr', rfl⟩
    · cases h

/-- The bytes that mean something in a directive, with the one that a comment is read as. -/
def directiveMarks : Bytes := "<>'\" "

/-- A byte of the text of a directive that means nothing was read as itself. -/
theorem directive?_head {depth : Nat} {s t rest : Bytes} {c : UInt8}
    (h : directive? none depth s = some (c :: t, rest)) (hc : c ∉ directiveMarks) :
    ∃ s', s = c :: s' ∧ directive? none depth s' = some (t, rest) := by
  have hne : ∀ d ∈ directiveMarks, c ≠ d := fun d hd hcd => hc (hcd ▸ hd)
  cases s with
  | nil =>
    rw [directive?] at h
    cases h
  | cons d s =>
    by_cases hend : d = '>'.toUInt8 ∧ depth = 0
    · rw [hend.1, hend.2, directive?_end] at h
      cases h
    by_cases hcomment : d = '<'.toUInt8 ∧ (Bytes.dropStart? s "!--").isSome
    · obtain ⟨rfl, hinner⟩ := hcomment
      obtain ⟨inner, hinner⟩ := Option.isSome_iff_exists.1 hinner
      obtain ⟨after, t', -, -, heq⟩ := directive?_comment hinner h
      exact absurd (List.cons.inj heq).1 (hne 0x20 (by decide))
    rw [directive?_keep (by simpa using hend) (by simpa using hcomment)] at h
    obtain ⟨r, hr, heq⟩ := Option.map_eq_some_iff.1 h
    simp only [Prod.mk.injEq, List.cons.injEq] at heq
    obtain ⟨⟨rfl, rfl⟩, rfl⟩ := heq
    have hnext : directiveNext none depth d = (none, depth) := by
      simp [directiveNext, hne '\''.toUInt8 (by decide), hne '"'.toUInt8 (by decide),
        hne '<'.toUInt8 (by decide), hne '>'.toUInt8 (by decide)]
    rw [hnext] at hr
    exact ⟨s, rfl, hr⟩

theorem directive?_no_comment {depth : Nat} {s t rest : Bytes}
    (h : directive? none depth s = some (t, rest)) (hcomment : Bytes.dropStart? s "!--" = none)
    (k : Bytes) : Bytes.dropStart? (t ++ '>'.toUInt8 :: k) "!--" = none := by
  have hmark : ("!--" : Bytes) = [0x21, 0x2D, 0x2D] := by decide
  have hgt : '>'.toUInt8 = 0x3E := rfl
  rw [Bytes.dropStart?, hmark, if_neg]
  intro hbegin
  rw [hgt] at hbegin
  match t, h, hbegin with
  | [], _, hbegin => simp [List.isPrefixOf] at hbegin
  | [a], _, hbegin => simp [List.isPrefixOf] at hbegin
  | [a, b], _, hbegin => simp [List.isPrefixOf] at hbegin
  | a :: b :: c :: t, h, hbegin =>
    obtain ⟨rfl, rfl, rfl⟩ : 0x21 = a ∧ 0x2D = b ∧ 0x2D = c := by
      simpa [List.isPrefixOf] using hbegin
    obtain ⟨s₁, rfl, h₁⟩ := directive?_head h (by decide)
    obtain ⟨s₂, rfl, h₂⟩ := directive?_head h₁ (by decide)
    obtain ⟨s₃, rfl, -⟩ := directive?_head h₂ (by decide)
    rw [Bytes.dropStart?, hmark] at hcomment
    simp [List.isPrefixOf] at hcomment

theorem directive?_again {quote : Option UInt8} {depth : Nat} {s t rest : Bytes}
    (h : directive? quote depth s = some (t, rest)) (k : Bytes) :
    directive? quote depth (t ++ '>'.toUInt8 :: k) = some (t, k) := by
  -- a comment is left out as a whole, so the induction is on the length
  induction hlen : s.length using Nat.strongRecOn generalizing s t quote depth with
  | _ len ih =>
  cases s with
  | nil =>
    rw [directive?] at h
    cases h
  | cons c s =>
    by_cases hend : quote = none ∧ c = '>'.toUInt8 ∧ depth = 0
    · obtain ⟨rfl, rfl, rfl⟩ := hend
      rw [directive?_end] at h
      cases h
      exact directive?_end k
    by_cases hcomment : quote = none ∧ c = '<'.toUInt8 ∧ (Bytes.dropStart? s "!--").isSome
    · obtain ⟨rfl, rfl, hinner⟩ := hcomment
      obtain ⟨inner, hinner⟩ := Option.isSome_iff_exists.1 hinner
      obtain ⟨after, t', hshort, hread, heq⟩ := directive?_comment hinner h
      have hagain := ih after.length (by simp at hlen; omega) hread rfl
      rw [show t = 0x20 :: t' from heq, List.cons_append, directive?_keep (by rintro ⟨-, h, -⟩; cases h)
          (by rintro - h; cases h),
        show directiveNext none depth 0x20 = (none, depth) from rfl, hagain]
      rfl
    have hnone : quote = none → c = '<'.toUInt8 → Bytes.dropStart? s "!--" = none := by
      intro hq hc
      simpa [hq, hc] using hcomment
    rw [directive?_keep hend hnone] at h
    obtain ⟨⟨t', rest'⟩, hread, heq⟩ := Option.map_eq_some_iff.1 h
    simp only [Prod.mk.injEq] at heq
    obtain ⟨rfl, rfl⟩ := heq
    have hagain := ih s.length (by simp at hlen; omega) hread rfl
    rw [List.cons_append, directive?_keep hend, hagain]
    · rfl
    · rintro rfl rfl
      exact directive?_no_comment hread (hnone rfl rfl) k

theorem legalLeaf_directive {s content rest : Bytes} {c : UInt8}
    (h : directive? none 0 s = some (content, rest)) (hc : c ≠ 0x2D ∧ c ≠ 0x5B) :
    (Node.directive (c :: content)).LegalLeaf := by
  refine ⟨rfl, fun _ k => ⟨0x21 :: c :: (content ++ '>'.toUInt8 :: k), ?_, ?_, ?_⟩⟩
  · simp only [Node.render, List.append_assoc]
    rfl
  · simp
    omega
  · rw [markup?.eq_def]
    split
    · rename_i heq
      cases heq
    · rename_i heq
      cases heq
    · rename_i heq
      simp only [List.cons.injEq, true_and] at heq
      exact absurd heq.1 hc.1
    · rename_i heq
      simp only [List.cons.injEq, true_and] at heq
      exact absurd heq.1 hc.2
    · rename_i heq
      simp only [List.cons.injEq, true_and] at heq
      obtain ⟨rfl, rfl⟩ := heq
      rw [directive?_again h k]
      rfl
    · rename_i hno
      exact (hno _ _ rfl).elim

/-! ## What is read is legal -/

/-- A part of a document that can be written and read again. -/
def Event.Legal : Event → Prop
  | .opened name attrs => Element.Legal ⟨name, attrs⟩
  | .closed _ => True
  | .leaf n => n.LegalLeaf

theorem legal_of_markup? {s rest : Bytes} {evs : List Event} (h : markup? s = some (evs, rest)) :
    ∀ ev ∈ evs, ev.Legal := by
  rw [markup?.eq_def] at h
  split at h
  · obtain ⟨⟨name, r⟩, -, h⟩ := Option.bind_eq_some_iff.1 h
    simp only at h
    split at h
    · cases h
      simp [Event.Legal]
    · cases h
  · obtain ⟨⟨target, r⟩, hword, h⟩ := Option.bind_eq_some_iff.1 h
    obtain ⟨⟨content, r'⟩, hcut, h⟩ := Option.bind_eq_some_iff.1 h
    simp only at h
    split at h
    · rename_i hread
      cases h
      simpa [Event.Legal] using legalLeaf_instruction (isWord_of_word? hword) hcut hread
    · cases h
  · split at h
    · obtain ⟨⟨content, r⟩, hcut, h⟩ := Option.bind_eq_some_iff.1 h
      simp only at h
      split at h
      · cases h
        simpa [Event.Legal] using legalLeaf_comment hcut
      · cases h
    · cases h
  · obtain ⟨r, -, h⟩ := Option.bind_eq_some_iff.1 h
    obtain ⟨⟨content, r'⟩, -, h⟩ := Option.bind_eq_some_iff.1 h
    cases h
    simpa [Event.Legal] using legalLeaf_text content
  · rename_i c r hdash hsection
    obtain ⟨⟨content, r'⟩, hread, h⟩ := Option.bind_eq_some_iff.1 h
    cases h
    have hc : c ≠ 0x2D ∧ c ≠ 0x5B := by
      constructor
      · rintro rfl
        exact hdash rfl
      · rintro rfl
        exact hsection rfl
    simpa [Event.Legal] using legalLeaf_directive hread hc
  · obtain ⟨⟨name, r⟩, hname, h⟩ := Option.bind_eq_some_iff.1 h
    obtain ⟨⟨attrs, closed, r'⟩, hattrs, h⟩ := Option.bind_eq_some_iff.1 h
    cases h
    obtain ⟨hlegal, hunique⟩ := legal_of_attributes? hattrs (by simp) (by simp)
    intro ev hev
    rcases List.mem_cons.1 hev with rfl | hev
    · exact ⟨written_of_name? hname, hlegal, hunique⟩
    · cases closed with
      | true =>
        obtain rfl := List.mem_singleton.1 hev
        trivial
      | false => cases hev

end Xml

end Flowsmith
