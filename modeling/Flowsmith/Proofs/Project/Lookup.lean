import Mathlib
import Flowsmith.Proofs.Outcome
import Flowsmith.Project.Registry
import Flowsmith.Proofs.Files.Table

/-!
# Names under which classes are registered

The search for the name of a class takes the first registration with a name whose type mentions the full
name of the class and a comma. A type names the class in front of its first comma, so this is a
registration of the class itself as long as no type mentions the full name later.

* `Element.typeClass?` : the class that an element registers;
* `Bytes.cut?_comma_iff` : what stands in front of the first comma of a text;
* `lookup?_eq_mention` : the search goes through the elements of the document;
* `lookup?_eq_registered` : it gives the first registration of exactly that class;
* `lookup?_longer_space` : and that of another class whose full name ends in this one's.
-/

namespace Flowsmith

open Xml

namespace Bytes

/-! ## The text in front of a comma -/

theorem isPrefixOf_comma {c : UInt8} {s : Bytes} (h : 0x2C ≠ c) :
    ("," : Bytes).isPrefixOf (c :: s) = false := by
  show (0x2C == c && true) = false
  rw [Bool.and_true, beq_eq_false_iff_ne]
  exact h

theorem indexOf?_comma {a b : Bytes} (h : 0x2C ∉ a) :
    indexOf? "," (a ++ 0x2C :: b) = some a.length := by
  induction a with
  | nil => rfl
  | cons c a ih =>
    rw [List.mem_cons, not_or] at h
    rw [List.cons_append, indexOf?, isPrefixOf_comma h.1, ih h.2]
    rfl

theorem indexOf?_comma_of_not_mem {a : Bytes} (h : 0x2C ∉ a) : indexOf? "," a = none := by
  induction a with
  | nil => rfl
  | cons c a ih =>
    rw [List.mem_cons, not_or] at h
    rw [indexOf?, isPrefixOf_comma h.1, ih h.2]
    rfl

/-- The text in front of the first comma is the one without commas that a comma follows. -/
theorem cut?_comma_iff {s full : Bytes} :
    (s.cut? ",").map (·.1) = some full ↔ 0x2C ∉ full ∧ full ++ ("," : Bytes) <+: s := by
  have hcut {a b : Bytes} (ha : 0x2C ∉ a) : ((a ++ 0x2C :: b).cut? ",").map (·.1) = some a := by
    rw [cut?, indexOf?_comma ha, Option.map_some, Option.map_some, List.take_left]
  constructor
  · intro h
    by_cases hmem : (0x2C : UInt8) ∈ s
    · obtain ⟨a, b, rfl, ha⟩ := List.eq_append_cons_of_mem hmem
      obtain rfl : a = full := Option.some.inj ((hcut ha).symm.trans h)
      exact ⟨ha, b, by rw [List.append_assoc]; rfl⟩
    · rw [cut?, indexOf?_comma_of_not_mem hmem] at h
      cases h
  · rintro ⟨hfull, b, rfl⟩
    rw [List.append_assoc]
    exact hcut hfull

end Bytes

namespace Xml.Element

variable {full : Bytes} {e : Element}

/-- The full name of the class that an element registers: what stands in its type in front of the first
comma. A type without a comma names none. -/
def typeClass? (e : Element) : Option Bytes :=
  (e.attr? "type").bind fun type => (type.cut? ",").map (·.1)

/-- The element registers the class `full` under a name. -/
def registers (full : Bytes) (e : Element) : Bool :=
  e.typeClass? == some full && !(e.attrD "name").isEmpty

/-- The element has a name, and a type that mentions `full` and a comma. -/
def mentions (full : Bytes) (e : Element) : Bool :=
  (e.attr? "type").any (·.includes (full ++ ("," : Bytes))) && !(e.attrD "name").isEmpty

theorem registers_iff : e.registers full = true ↔
    0x2C ∉ full ∧ (∃ type, e.attr? "type" = some type ∧ full ++ ("," : Bytes) <+: type) ∧ e.attrD "name" ≠ [] := by
  rw [registers, typeClass?, Bool.and_eq_true, beq_iff_eq, Option.bind_eq_some_iff]
  simp only [Bytes.cut?_comma_iff, Bool.not_eq_true', List.isEmpty_eq_false_iff]
  tauto

theorem mentions_iff : e.mentions full = true ↔
    (∃ type, e.attr? "type" = some type ∧ full ++ ("," : Bytes) <:+: type) ∧ e.attrD "name" ≠ [] := by
  rw [mentions, Bool.and_eq_true, Option.any_eq_true, Bool.not_eq_true', List.isEmpty_eq_false_iff]
  simp only [Bytes.includes_iff]

theorem mentions_of_registers (h : e.registers full = true) : e.mentions full = true := by
  obtain ⟨-, ⟨type, htype, hfront⟩, hname⟩ := registers_iff.1 h
  exact mentions_iff.2 ⟨⟨type, htype, hfront.isInfix⟩, hname⟩

end Xml.Element

namespace Registry

open Element

variable {path data space cls full : Bytes} {r : Registry} {nodes : List Node}

def fullName (space cls : Bytes) : Bytes := space ++ ("." : Bytes) ++ cls

theorem comma_not_mem_fullName (hspace : 0x2C ∉ space) (hcls : 0x2C ∉ cls) :
    0x2C ∉ fullName space cls := by
  have hdot : (0x2C : UInt8) ∉ ("." : Bytes) := by decide
  simp only [fullName, List.mem_append, not_or]
  exact ⟨⟨hspace, hdot⟩, hcls⟩

theorem entries_of_ofBytes (h : ofBytes path data = .ok r)
    (hparse : Xml.parse (if Project.byteOrderMark.isPrefixOf data then data.drop 3 else data) = .ok nodes) :
    r.entries = (elementsNamed "add" nodes).filterMap entry? := by
  simp only [ofBytes, hparse] at h
  cases h
  rfl

theorem exists_ofBytes (path : Bytes)
    (hparse : Xml.parse (if Project.byteOrderMark.isPrefixOf data then data.drop 3 else data) = .ok nodes) :
    ∃ r, ofBytes path data = .ok r := by
  simp only [ofBytes, hparse]
  exact ⟨_, rfl⟩

/-- The search is one for the first element that mentions the class. -/
theorem lookup?_eq_mention (h : r.entries = (elementsNamed "add" nodes).filterMap entry?) :
    r.lookup? space cls =
      ((elementsNamed "add" nodes).find? (mentions (fullName space cls))).map (·.attrD "name") := by
  rw [lookup?, h, ← fullName]
  induction elementsNamed "add" nodes with
  | nil => rfl
  | cons e es ih =>
    rw [List.filterMap_cons, List.find?_cons, mentions]
    cases htype : e.attr? "type" with
    | none => simpa [ entry?, htype] using ih
    | some type =>
      simp only [ entry?, htype, Option.map_some, List.find?_cons, Option.any_some]
      split
      · rfl
      · exact ih

/-- **A registered name is found by the full name of its class**: the first registration of that class,
level by level, that has a name gives it, and there is none when none does. This holds where no
registration with a name mentions the full name and a comma behind the beginning of its type. -/
theorem lookup?_eq_registered (hread : ofBytes path data = .ok r)
    (hparse : Xml.parse (if Project.byteOrderMark.isPrefixOf data then data.drop 3 else data) = .ok nodes)
    (hspace : 0x2C ∉ space) (hcls : 0x2C ∉ cls)
    (hfront : ∀ e ∈ elementsNamed "add" nodes, ∀ type, e.attr? "type" = some type →
      e.attrD "name" ≠ [] → fullName space cls ++ ("," : Bytes) <:+: type →
      fullName space cls ++ ("," : Bytes) <+: type) :
    r.lookup? space cls =
      ((elementsNamed "add" nodes).find? (registers (fullName space cls))).map (·.attrD "name") := by
  rw [lookup?_eq_mention (entries_of_ofBytes hread hparse)]
  congr 1
  refine List.find?_congr fun e he => Bool.eq_iff_iff.2 ⟨fun hmention => ?_, mentions_of_registers⟩
  obtain ⟨⟨type, htype, hinfix⟩, hname⟩ := mentions_iff.1 hmention
  exact registers_iff.2 ⟨comma_not_mem_fullName hspace hcls,
    ⟨type, htype, hfront e he type htype hname hinfix⟩, hname⟩

set_option maxRecDepth 20000 in
/-- A class is found behind one with a longer name, and behind a registration without a name. -/
theorem lookup?_eq_registered_behind : ∃ r,
    ofBytes "w.config" "<W><add type='N.C, A'/><add name='Y' type='N.CD, A'/><add name='X' type='N.C, A'/></W>" =
      .ok r ∧ r.lookup? "N" "C" = some ("X" : Bytes) := by
  obtain ⟨nodes, hparse, hnodes⟩ : ∃ nodes,
      Xml.parse "<W><add type='N.C, A'/><add name='Y' type='N.CD, A'/><add name='X' type='N.C, A'/></W>" =
        .ok nodes ∧
      elementsNamed "add" nodes =
        [⟨⟨[], "add"⟩, [⟨⟨[], "type"⟩, "N.C, A"⟩]⟩,
          ⟨⟨[], "add"⟩, [⟨⟨[], "name"⟩, "Y"⟩, ⟨⟨[], "type"⟩, "N.CD, A"⟩]⟩,
          ⟨⟨[], "add"⟩, [⟨⟨[], "name"⟩, "X"⟩, ⟨⟨[], "type"⟩, "N.C, A"⟩]⟩] := by
    repeat rw [Bytes.ofString_ofList]
    decide +kernel
  obtain ⟨r, hread⟩ : ∃ r, ofBytes "w.config"
      "<W><add type='N.C, A'/><add name='Y' type='N.CD, A'/><add name='X' type='N.C, A'/></W>" = .ok r :=
    exists_ofBytes "w.config" hparse
  refine ⟨r, hread, ?_⟩
  rw [lookup?_eq_registered hread hparse (by decide) (by decide) ?_, hnodes]
  · decide
  · rw [hnodes]
    intro e he type htype _ hinfix
    simp only [List.mem_cons, List.not_mem_nil, or_false] at he
    rcases he with rfl | rfl | rfl <;> obtain rfl := Option.some.inj htype <;> revert hinfix <;>
      decide

set_option maxRecDepth 20000 in
/-- The registration of a class in a longer namespace is taken for that of the class asked for, which is
not registered. -/
theorem lookup?_longer_space : ∃ r nodes,
    ofBytes "w.config" "<W><add name='X' type='M.N.C, A'/></W>" = .ok r ∧
    Xml.parse "<W><add name='X' type='M.N.C, A'/></W>" = .ok nodes ∧
    (elementsNamed "add" nodes).find? (registers "N.C") = none ∧
    r.lookup? "N" "C" = some ("X" : Bytes) := by
  obtain ⟨nodes, hparse, hnodes⟩ : ∃ nodes,
      Xml.parse "<W><add name='X' type='M.N.C, A'/></W>" = .ok nodes ∧
      elementsNamed "add" nodes =
        [⟨⟨[], "add"⟩, [⟨⟨[], "name"⟩, "X"⟩, ⟨⟨[], "type"⟩, "M.N.C, A"⟩]⟩] := by
    repeat rw [Bytes.ofString_ofList]
    decide +kernel
  obtain ⟨r, hread⟩ : ∃ r, ofBytes "w.config" "<W><add name='X' type='M.N.C, A'/></W>" = .ok r :=
    exists_ofBytes "w.config" hparse
  refine ⟨r, nodes, hread, hparse, ?_, ?_⟩
  · rw [hnodes]
    decide
  · rw [lookup?, entries_of_ofBytes hread hparse, hnodes]
    decide

end Registry

end Flowsmith
