import Flowsmith.Proofs.Activity.Usings
import Flowsmith.Proofs.Migration.Session
import Flowsmith.Proofs.Source.Headings
import Flowsmith.Proofs.Source.Safety
import Mathlib

/-!
# Declarations that a text search finds

The namespace and the class of a workflow are found by a text search, while its members are carried over
from the class that is scanned. Comments, literals and unusual layouts can lead the two apart; they name
the same declarations when these stand where the search looks first.

* `Heading.InView`, `Class.InView` : a namespace and a class that the search comes to first;
* `searchNamespace_of_inView`, `searchPartialClass_of_inView` : what it finds then;
* `search_agrees` : the search and the scanner name the same declarations, and so does a workflow that
  is loaded.
-/

namespace Flowsmith.Source

/-! ## Namespaces -/

/-- The keyword of a namespace with the space after it. -/
def namespaceMark : Bytes := "namespace "

/-- The namespace stands where a text search looks for it: the first `namespace ` is its keyword, and its
name begins right after that, holds no blanks and no brace, and is followed by a blank or a brace. -/
structure Heading.InView (src : Bytes) (d : Heading) : Prop where
  space : d.isUsing = false
  first : Bytes.indexOf? namespaceMark src = some d.keyword.start
  start : ∃ a, d.target.head? = some a ∧ a.start = d.keyword.start + namespaceMark.length
  plain : ∀ c ∈ raw src.slice d.target, endsNamespace c = false
  joined : flat src.slice d.target = raw src.slice d.target
  stop : ∃ b, d.target.getLast? = some b ∧ (src.drop b.stop).head?.any endsNamespace = true

theorem slice_append_drop {s : Bytes} {x y : Nat} (h : x ≤ y) : s.slice x y ++ s.drop y = s.drop x := by
  rw [Bytes.slice]
  conv_rhs => rw [← List.take_append_drop (y - x) (s.drop x), List.drop_drop, Nat.add_sub_cancel' h]

/-- The tokens of a heading stand in a row among those of the source. -/
theorem target_infix {cut : Nat → Nat → Bytes} {space : Bytes} {before ts : List Token} {d : Heading}
    (h : d ∈ headingsFrom cut space before ts) : d.target <:+: ts := by
  have hrest : ∀ (t : Token) (rest : List Token) (n : Nat), rest.drop n <:+: t :: rest := fun t rest n =>
    ((List.drop_suffix n rest).trans (List.suffix_cons t rest)).isInfix
  fun_induction headingsFrom cut space before ts with
  | case1 => cases h
  | case2 space before t rest husing target ih =>
    rcases List.mem_cons.1 h with rfl | h
    · exact (List.takeWhile_prefix _).isInfix.trans (List.suffix_cons t rest).isInfix
    · exact (ih h).trans (hrest t rest _)
  | case3 space before t rest husing hspace name ih =>
    rcases List.mem_cons.1 h with rfl | h
    · exact (List.takeWhile_prefix _).isInfix.trans (List.suffix_cons t rest).isInfix
    · exact (ih h).trans (hrest t rest _)
  | case4 => cases h
  | case5 space before t rest husing hspace hclass ih => exact (ih h).trans (hrest t rest 0)

/-- The tokens of a heading lie in order inside the source. -/
theorem target_bounds {src : Bytes} {d : Heading} {a b : Token} (h : d ∈ headings src)
    (ha : d.target.head? = some a) (hb : d.target.getLast? = some b) :
    a.start < b.stop ∧ b.stop ≤ src.length := by
  obtain ⟨pre, post, heq⟩ := target_infix h
  have hlast : b ∈ pre ++ d.target ++ post := by simp [List.mem_of_getLast? hb]
  have hab := (solid_bounds heq.symm ha hb).2.1 b (List.mem_of_getLast? hb)
  have := start_lt_of_solid heq.symm hlast
  have hend := stop_le_of_mem (mem_of_solid heq.symm hlast)
  rw [Nat.zero_add] at hend
  exact ⟨by omega, hend⟩

/-- **A namespace in view** is the one that a text search finds. -/
theorem searchNamespace_of_inView {src : Bytes} {d : Heading} (h : d ∈ headings src) (hview : d.InView src) :
    flat src.slice d.target ≠ [] ∧ searchNamespace src = some (flat src.slice d.target) := by
  obtain ⟨a, ha, hstart⟩ := hview.start
  obtain ⟨b, hb, hends⟩ := hview.stop
  obtain ⟨hlt, hle⟩ := target_bounds h ha hb
  have hraw : raw src.slice d.target = src.slice a.start b.stop := by
    unfold raw
    rw [ha, hb]
  rw [hview.joined]
  refine ⟨fun hnil => ?_, ?_⟩
  · have hlen := congrArg List.length (hraw.symm.trans hnil)
    rw [Bytes.slice, List.length_take, List.length_drop, List.length_nil] at hlen
    omega
  have hrest : src.drop (d.keyword.start + namespaceMark.length)
      = raw src.slice d.target ++ src.drop b.stop := by
    rw [hraw, slice_append_drop (Nat.le_of_lt hlt), hstart]
  obtain ⟨x, hx, hstop⟩ := (Option.any_eq_true _ _).1 hends
  obtain ⟨r, hr⟩ := List.head?_eq_some_iff.1 hx
  have hname : (raw src.slice d.target ++ x :: r).takeWhile (fun c => !endsNamespace c)
      = raw src.slice d.target := by
    rw [List.takeWhile_append_of_pos fun c hc => by rw [hview.plain c hc]; rfl,
      List.takeWhile_cons_of_neg (by rw [hstop]; exact Bool.false_ne_true), List.append_nil]
  have hcut : src.cut? namespaceMark = some (src.take d.keyword.start,
      src.drop (d.keyword.start + namespaceMark.length)) := by
    rw [Bytes.cut?, hview.first, Option.map_some]
  unfold searchNamespace
  rw [show src.cut? (Bytes.ofString "namespace ") = _ from hcut, hrest, hr]
  simp only [bind, Option.bind_some, hname]
  rw [if_pos (by rw [List.length_append, List.length_cons]; omega)]

/-! ## Classes -/

theorem firstSome_drop {α : Type} {f : Bytes → Option α} {s : Bytes} {n : Nat} {a : α}
    (hn : n ≤ s.length) (hfound : f (s.drop n) = some a) (hfirst : ∀ m < n, f (s.drop m) = none) :
    Bytes.firstSome f s = some a := by
  induction s generalizing n with
  | nil =>
    rw [List.drop_nil] at hfound
    exact hfound
  | cons c s ih =>
    rw [Bytes.firstSome]
    cases n with
    | zero =>
      rw [List.drop_zero] at hfound
      rw [hfound]
    | succ n =>
      have hzero := hfirst 0 (Nat.succ_pos n)
      rw [List.drop_zero] at hzero
      rw [hzero]
      exact ih (Nat.le_of_succ_le_succ hn) hfound fun m hm => hfirst (m + 1) (Nat.succ_lt_succ hm)

/-- The modifier and the keyword of a partial class. -/
def partialMark : Bytes := "partial "

def classMark : Bytes := "class "

def baseMark : Bytes := " :"

/-- The class stands where a text search looks for it: the first place where `partial class ` is followed
by ` :` on its line holds the keyword of the class, and between them is one word. -/
structure Class.InView (src : Bytes) (c : Class) : Prop where
  first : ∀ n, n + partialMark.length < c.keywordStart → partialClassAt? (src.drop n) = none
  written : ∃ pre w r, src = pre ++ (partialMark ++ (classMark ++ (w ++ (baseMark ++ r)))) ∧
    pre.length + partialMark.length = c.keywordStart ∧ IsWord w

theorem not_mem_of_isWord {w : Bytes} {c : UInt8} (h : IsWord w) (hc : c = 0x20 ∨ c = Bytes.newline) :
    c ∉ w := fun hmem => by
  obtain ⟨a, b, rfl⟩ := List.append_of_mem hmem
  have hblank := blankSize_word (r := []) h rfl (List.cons_ne_nil c b) fun x hx => by cases hx
  rcases hc with rfl | rfl <;> cases hblank

/-- The name that a text search takes from a partial class. -/
theorem partialClassAt?_word {w : Bytes} (r : Bytes) (h : IsWord w) :
    partialClassAt? (partialMark ++ (classMark ++ (w ++ (baseMark ++ r)))) = some w := by
  have hline : Text.firstLine (w ++ (baseMark ++ r)) = w ++ Text.firstLine (baseMark ++ r) :=
    Text.firstLine_append _ (not_mem_of_isWord h (.inr rfl))
  have hbase : baseMark <+: Text.firstLine (baseMark ++ r) := by
    rw [Text.firstLine_append r (by decide)]
    exact List.prefix_append _ _
  obtain ⟨i, hi, hfound⟩ : ∃ i ≤ w.length, Bytes.indexOf? baseMark (w ++ Text.firstLine (baseMark ++ r))
    = some i :=
    Activity.indexOf?_le (by rw [List.drop_left]; exact hbase)
  -- the mark begins with a space, and the word holds none
  have hlen : i = w.length := by
    by_contra hne
    obtain ⟨t, ht⟩ := (Activity.indexOf?_found hfound).2
    have hlt : i < w.length := by omega
    rw [List.drop_append_of_le_length hi] at ht
    obtain ⟨c, u, hu⟩ := List.exists_cons_of_ne_nil (show w.drop i ≠ [] by
      rw [ne_eq, List.drop_eq_nil_iff]
      omega)
    rw [hu] at ht
    have hc : c = 0x20 := (List.cons.inj ht).1.symm
    exact not_mem_of_isWord h (.inl hc) (List.mem_of_mem_drop (hu ▸ List.mem_cons_self))
  have hdrop : Bytes.dropStart? (partialMark ++ (classMark ++ (w ++ (baseMark ++ r))))
      "partial class " = some (w ++ (baseMark ++ r)) := Activity.dropStart?_eq_some.2 (by
    rw [← List.append_assoc]
    rfl)
  unfold partialClassAt?
  rw [hdrop]
  simp only [bind, Option.bind_some, hline, Bytes.cut?]
  rw [show Bytes.indexOf? (Bytes.ofString " :") _ = some i from hfound, hlen]
  simp

theorem classOf_name {cut : Nat → Nat → Bytes} {trivia before after : List Token} {keyword : Token}
    {c : Class} (h : classOf cut trivia before keyword after = .ok c) : c.name = headText after := by
  unfold classOf at h
  simp only at h
  split at h
  · cases h
    rfl
  · obtain ⟨members, -, h⟩ := bind_eq_ok h
    cases h
    rfl

/-- **A class in view** is the one whose name a text search finds. -/
theorem searchPartialClass_of_inView {src : Bytes} {o : Outline} {c : Class} (h : outline src = .ok o)
    (hc : o.class? = some c) (hview : c.InView src) : searchPartialClass src = some c.name := by
  obtain ⟨pre, w, r, hsrc, hstart, hw⟩ := hview.written
  -- the word is the name that the scanner reads
  have hclass : ∀ t ∈ solid (tokens src), t.is "class" = true → t.isWord = true := fun t ht hkey => by
    simp only [Token.is, Bool.and_eq_true, beq_iff_eq] at hkey
    exact isWord_of_letter (mem_solid.1 ht).1 (by rw [hkey.2]; decide)
  obtain ⟨front, keyword, after, hsolid, -, -, hread, -⟩ :=
    finds_of_outlineFrom 0 (show outlineFrom _ _ _ [] (solid (tokens src)) = .ok o from h) rfl hc hclass
  have hkeyword : keyword.start = pre.length + partialMark.length := by
    rw [← (classOf_header hread).2.2, hstart]
  obtain ⟨f, hdrop⟩ := solid_drop hsolid
  rw [hkeyword, hsrc, ← List.drop_drop, List.drop_left, List.drop_left] at hdrop
  have hstands : Each (fun r p => p.Stands r) [.word "class", .gap " ", .word w] (baseMark ++ r) :=
    ⟨⟨by decide +kernel, stops_space _⟩, stands_space _, ⟨hw, stops_space _⟩, trivial⟩
  obtain ⟨f', hplace⟩ := solid_render hstands (pre.length + partialMark.length) f
  have hrender : classMark ++ (w ++ (baseMark ++ r))
      = render [.word "class", .gap " ", .word w] ++ (baseMark ++ r) := by
    simp [classMark, Chunk.text, Bytes.ofString]
  rw [hrender, hplace] at hdrop
  have hname : c.name = w := by
    rw [classOf_name hread, ← (List.cons.inj hdrop).2]
    rfl
  -- and it is the first one of its form in the text
  rw [hname]
  refine firstSome_drop (n := pre.length) ?_ ?_ fun m hm => hview.first m (by omega)
  · rw [hsrc, List.length_append]
    omega
  · rw [hsrc, List.drop_left]
    exact partialClassAt?_word r hw

/-! ## The search and the scanner -/

def SpaceInView (src : Bytes) : Prop := ∃ d ∈ headings src, d.InView src

theorem searchNamespace_eq {src : Bytes} {o : Outline} (h : outline src = .ok o) (hview : SpaceInView src) :
    searchNamespace src = some o.space := by
  obtain ⟨d, hd, hview⟩ := hview
  obtain ⟨hne, hsearch⟩ := searchNamespace_of_inView hd hview
  rw [hsearch, (outlineFrom_space_eq h).2 d hd hview.space hne]

/-- **The text search and the scanner name the same declarations** when these are in view, and a workflow
that is loaded from the source bears their names. -/
theorem search_agrees {src : Bytes} (hnest : Nested (tokens src)) :
    ∃ o, outline src = .ok o ∧
      (SpaceInView src → searchNamespace src = some o.space) ∧
      (∀ c ∈ o.class?, c.InView src → searchPartialClass src = some c.name) ∧
      ∀ (σ : Type) [FileStore σ] (s : Settings) (registry : Option Registry) (path : Bytes) (m m' : σ)
        (w : Workflow), Ends (Workflow.load s registry path) m w m' → w.codeBehind = src →
          (SpaceInView src → w.space = o.space) ∧
          ∀ c ∈ o.class?, c.InView src → w.className = c.name ∧
            (SpaceInView src → w.name = (registry.bind (·.lookup? o.space c.name)).getD c.name) := by
  obtain ⟨o, ho, -⟩ := outline_safe hnest
  refine ⟨o, ho, searchNamespace_eq ho, fun c hc => searchPartialClass_of_inView ho hc, ?_⟩
  rintro σ _ s registry path m m' w hload rfl
  obtain ⟨code, _, _, _, _, -, -, -, rfl⟩ := Workflow.load_iff.1 hload
  have ho : outline code = .ok o := ho
  have hspace : SpaceInView code → Workflow.spaceOf s code = o.space := fun hview => by
    rw [Workflow.spaceOf, searchNamespace_eq ho hview, Option.getD_some]
  have hname : ∀ c ∈ o.class?, c.InView code → Workflow.classNameOf path code = c.name := fun c hc hview => by
    rw [Workflow.classNameOf, searchPartialClass_of_inView ho hc hview, Option.getD_some]
  refine ⟨hspace, fun c hc hview => ⟨hname c hc hview, fun hviewed => ?_⟩⟩
  show (registry.bind (·.lookup? (Workflow.spaceOf s code) (Workflow.classNameOf path code))).getD
    (Workflow.classNameOf path code) = _
  rw [hspace hviewed, hname c hc hview]

/-- A code-behind source in the usual layout. -/
def plainCode : Bytes :=
  "using X;\n// namespaces\nnamespace A.B\n\x7b\n  public partial class C : D\n  \x7b\n  \x7d\n\x7d\n"

def plainClass : Class where
  name := "C"
  modifiers := ["public", "partial"]
  bases := "D"
  start := 41
  keywordStart := 56

def plainStore : Memory where
  table := [("/", .directory), ("/w", .directory), ("/w/A.xoml", .file "M"), ("/w/A.xoml.cs", .file plainCode)]
  writes := 2

theorem search_agrees_plain : Nested (tokens plainCode) ∧ SpaceInView plainCode ∧
    plainClass.InView plainCode ∧ searchNamespace plainCode = some "A.B" ∧
    searchPartialClass plainCode = some "C" ∧
    ∃ w m, Ends (Workflow.load .default none "/w/A.xoml.cs") plainStore w m ∧
      w.space = ("A.B" : Bytes) ∧ w.className = ("C" : Bytes) ∧ w.name = ("C" : Bytes) := by
  -- the source as a list of characters, for what is evaluated
  have hcode : plainCode = _ := Bytes.ofString_ofList _
  have hnest : Nested (tokens plainCode) := by
    rw [hcode]
    decide +kernel
  have hheading : (⟨some ⟨.mark, ";", 7⟩, ⟨.word, "namespace", 23⟩,
      [⟨.word, "A", 33⟩, ⟨.mark, ".", 34⟩, ⟨.word, "B", 35⟩]⟩ : Heading) ∈ headings plainCode := by
    rw [hcode]
    decide +kernel
  have hspace : SpaceInView plainCode := by
    refine ⟨_, hheading, ?_⟩
    rw [hcode]
    refine ⟨by decide +kernel, by decide +kernel, ⟨_, rfl, rfl⟩, by decide +kernel,
      by decide +kernel, ⟨_, rfl, by decide +kernel⟩⟩
  have hview : plainClass.InView plainCode := by
    have hfirst : ∀ n < 48, partialClassAt? (List.drop n plainCode) = none := by
      rw [hcode]
      decide
    refine ⟨fun n hn => hfirst n (Nat.lt_of_add_lt_add_right hn), List.take 48 plainCode, "C",
      List.drop 65 plainCode, ?_⟩
    rw [hcode]
    decide +kernel
  obtain ⟨o, ho, hsearch, hclass, hload⟩ := search_agrees hnest
  have hread : outline plainCode = .ok ⟨["X"], "A.B", some plainClass⟩ := by
    rw [hcode]
    decide +kernel
  rw [hread, Except.ok.injEq] at ho
  subst ho
  have hfind : Ends (Files.find (Path.directory "/w/A.xoml.cs") (Workflow.markupName "/w/A.xoml.cs"))
      { plainStore with reads := 1 } ["/w/A.xoml"] { plainStore with reads := 1 } := by
    cbv
  have hran : Ends (Workflow.load .default none "/w/A.xoml.cs") plainStore
      (Workflow.assemble .default none "/w/A.xoml.cs" plainCode "/w/A.xoml" "M")
      { plainStore with reads := 2 } :=
    Workflow.load_iff.2 ⟨_, _, _, _, _, Memory.read_iff.2 ⟨rfl, rfl, rfl⟩, hfind,
      Memory.read_iff.2 ⟨rfl, rfl, rfl⟩, rfl⟩
  obtain ⟨hloaded, hnamed⟩ := hload _ _ _ _ _ _ _ hran rfl
  exact ⟨hnest, hspace, hview, hsearch hspace, hclass _ rfl hview, _, _, hran, hloaded hspace,
    (hnamed _ rfl hview).1, (hnamed _ rfl hview).2 hspace⟩

/-- A comment that names another namespace, and one that names another class. -/
def commented : Bytes :=
  "// namespace B \x7b\n// partial class B : X\nnamespace A \x7b partial class A : X \x7b \x7d \x7d"

/-- The text search may name other declarations than the scanner. -/
theorem search_commented : Nested (tokens commented) ∧
    ∃ o c, outline commented = .ok o ∧ o.class? = some c ∧ c.hasModifier "partial" = true ∧ c.bases ≠ [] ∧
      o.space = ("A" : Bytes) ∧ searchNamespace commented = some "B" ∧
      c.name = ("A" : Bytes) ∧ searchPartialClass commented = some "B" := by
  rw [commented, Bytes.ofString_ofList]
  refine ⟨by decide +kernel, ⟨[], "A", some _⟩,
    { name := "A", modifiers := ["partial"], bases := "X", start := 54, keywordStart := 62 }, ?_, rfl, ?_⟩
  · decide +kernel
  · decide

end Flowsmith.Source
