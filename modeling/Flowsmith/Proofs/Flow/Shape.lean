import Flowsmith.Proofs.Flow.Grammar
import Mathlib.Data.List.TakeWhile

/-!
# The flow that a text stands for

The flow of a definition is what is left of it when sequences, fault handlers and conditions without a
name are forgotten: steps with their types, and conditionals with what stands in the place of their
condition. Its text can be read back in one way only, since every line says what it is and nothing in a
line holds a line feed.

* `Slot`, `Part`, `parts` : the flow of a definition;
* `writeAll`, `chain_eq_writeAll` : its text;
* `writeAll_inj` : flows with the same text are the same;
* `Keeps` : a definition has as many steps, conditionals and missing conditions as its flow;
* `text_eq_iff_flow_eq` : expressions with the same text are those of definitions with the same flow.
-/

namespace Flowsmith.Flow

open Definition (Node Kind Bindings)

/-! ## Flows -/

/-- What stands in the place of a condition. -/
inductive Slot where
  | named (name : Bytes)
  /-- Nothing but what closes the place. -/
  | missing
  /-- The place is left to the conditional that follows. -/
  | taken
  deriving DecidableEq, Repr

/-- A step or a conditional of a flow. -/
inductive Part where
  | step (type : Bytes)
  /-- A conditional with one branch. -/
  | single (slot : Slot) (body : List Part)
  /-- A conditional with two branches. -/
  | double (slot : Slot) (body other : List Part)
  deriving Repr

/-- What stands in the place of the condition of a first branch. -/
def slotOf (o : Options) (cs : List Node) : Slot :=
  if !(givenName o cs).isEmpty then .named (givenName o cs)
  else if leadsToConditional cs then .taken
  else .missing

mutual

def partsOf (o : Options) (b : Bindings) : Node → List Part
  | .mk kind tag space attrs children =>
    let n := Node.mk kind tag space attrs children
    match kind with
    | .sequence => parts o b children
    | .conditional =>
      match children with
      | [] => []
      | [.mk _ _ _ _ cs] => [.single (slotOf o cs) (parts o b cs)]
      | .mk _ _ _ _ cs :: .mk _ _ _ _ ds :: _ => [.double (slotOf o cs) (parts o b cs) (parts o b ds)]
    | .step =>
      if o.faultHandlers.contains n.tag then []
      else match stepType b n with
        | .ok type => [.step type]
        | .error _ => []
    | _ => []

def parts (o : Options) (b : Bindings) : List Node → List Part
  | [] => []
  | n :: ns => partsOf o b n ++ parts o b ns

end

def flow (o : Options) (doc : Definition.Document) : List Part :=
  match doc.root? with
  | none => []
  | some root => parts o doc.bindings root.children

/-! ## The text of a flow -/

/-- What is written in the place of a condition. -/
def Slot.write : Slot → Bytes
  | .named name => name ++ ("())" : Bytes)
  | .missing => ")"
  | .taken => []

mutual

def Part.write (pad : Int → Bytes) (d : Int) : Part → Bytes
  | .step type => newLine pad d (stepCall type)
  | .single s body =>
    newLine pad d ifMark ++ s.write ++ writeAll pad (d + 1) body ++ newLine pad d endMark
  | .double s body other =>
    newLine pad d ifMark ++ s.write ++ writeAll pad (d + 1) body ++ newLine pad d elseMark
      ++ writeAll pad (d + 1) other ++ newLine pad d endMark

def writeAll (pad : Int → Bytes) (d : Int) : List Part → Bytes
  | [] => []
  | x :: xs => x.write pad d ++ writeAll pad d xs

end

theorem writeAll_append (pad : Int → Bytes) (d : Int) (xs ys : List Part) :
    writeAll pad d (xs ++ ys) = writeAll pad d xs ++ writeAll pad d ys := by
  induction xs with
  | nil => rfl
  | cons x xs ih => rw [List.cons_append, writeAll, writeAll, ih, List.append_assoc]

theorem slot_eq_write (o : Options) (cs : List Node) : slot o cs = (slotOf o cs).write := by
  unfold slot slotOf
  split
  · rfl
  · split <;> rfl

mutual

theorem chainNode_eq_write (pad : Int → Bytes) (o : Options) (b : Bindings) : ∀ (d : Int) (n : Node),
    chainNode pad o b d n = writeAll pad d (partsOf o b n)
  | d, .mk .sequence tag space attrs children => by
    simp only [chainNode, partsOf]
    exact chain_eq_writeAll pad o b d children
  | d, .mk .conditional tag space attrs [] => rfl
  | d, .mk .conditional tag space attrs [.mk _ _ _ _ cs] => by
    simp only [chainNode, partsOf, writeAll, Part.write, slot_eq_write,
      chain_eq_writeAll pad o b (d + 1) cs, List.append_nil]
  | d, .mk .conditional tag space attrs (.mk _ _ _ _ cs :: .mk _ _ _ _ ds :: _) => by
    simp only [chainNode, partsOf, writeAll, Part.write, slot_eq_write,
      chain_eq_writeAll pad o b (d + 1) cs, chain_eq_writeAll pad o b (d + 1) ds, List.append_nil,
      List.append_assoc]
  | d, .mk .step tag space attrs children => by
    simp only [chainNode, partsOf]
    split
    · rfl
    · cases stepType b (Node.mk .step tag space attrs children) with
      | ok type => exact (List.append_nil _).symm
      | error f => rfl
  | d, .mk .branch tag space attrs children => rfl
  | d, .mk .condition tag space attrs children => rfl
  | d, .mk .unknown tag space attrs children => rfl

theorem chain_eq_writeAll (pad : Int → Bytes) (o : Options) (b : Bindings) : ∀ (d : Int)
    (ns : List Node), chain pad o b d ns = writeAll pad d (parts o b ns)
  | d, [] => rfl
  | d, n :: ns => by
    rw [chain, parts, writeAll_append, chainNode_eq_write pad o b d n, chain_eq_writeAll pad o b d ns]

end

/-! ## Lines -/

/-- A text is over, or goes on with a new line. -/
def BreaksLine (t : Bytes) : Prop := t = [] ∨ ∃ r, t = Bytes.newline :: r

/-- A line without a line feed ends where the text is over or a new line begins. -/
theorem line_inj {l l' t t' : Bytes} (hl : Bytes.newline ∉ l) (hl' : Bytes.newline ∉ l')
    (ht : BreaksLine t) (ht' : BreaksLine t') (h : l ++ t = l' ++ t') : l = l' ∧ t = t' := by
  induction l generalizing l' with
  | nil =>
    cases l' with
    | nil => exact ⟨rfl, h⟩
    | cons c l' =>
      rw [List.nil_append] at h
      rcases ht with rfl | ⟨r, rfl⟩
      · cases h
      · obtain ⟨rfl, -⟩ := List.cons.inj h
        exact absurd List.mem_cons_self hl'
  | cons c l ih =>
    cases l' with
    | nil =>
      rw [List.nil_append] at h
      rcases ht' with rfl | ⟨r, rfl⟩
      · cases h
      · obtain ⟨rfl, -⟩ := List.cons.inj h
        exact absurd List.mem_cons_self hl
    | cons c' l' =>
      obtain ⟨rfl, hrest⟩ := List.cons.inj h
      obtain ⟨rfl, rfl⟩ := ih (fun hm => hl (List.mem_cons_of_mem _ hm))
        (fun hm => hl' (List.mem_cons_of_mem _ hm)) hrest
      exact ⟨rfl, rfl⟩

theorem spaces_inj {m n : Nat} {c c' : UInt8} {s s' : Bytes} (hc : c ≠ 0x20) (hc' : c' ≠ 0x20)
    (h : Bytes.spaces m ++ c :: s = Bytes.spaces n ++ c' :: s') : c :: s = c' :: s' := by
  induction m generalizing n with
  | zero =>
    cases n with
    | zero => exact h
    | succ n =>
      obtain ⟨rfl, -⟩ := List.cons.inj h
      exact absurd rfl hc
  | succ m ih =>
    cases n with
    | zero =>
      obtain ⟨hspace, -⟩ := List.cons.inj h
      exact absurd hspace.symm hc'
    | succ n => exact ih (List.cons.inj h).2

/-- What the lines of a flow begin with after their spaces. -/
def heads : List Bytes := [".Do<", ifMark, elseMark, endMark]

/-- A text begins with a line break, spaces and a head. -/
def Begins (head t : Bytes) : Prop :=
  ∃ n r, t = Bytes.newline :: (Bytes.spaces n ++ (head ++ r))

/-- The heads are told apart by their first three characters. -/
theorem heads_take : ∀ h ∈ heads, ∀ h' ∈ heads, h.take 3 = h'.take 3 → h = h' := by decide

theorem heads_form : ∀ h ∈ heads, 3 ≤ h.length ∧ h.head? = some 0x2E := by decide

theorem Begins.unique {h h' t : Bytes} (hh : h ∈ heads) (hh' : h' ∈ heads) (ht : Begins h t)
    (ht' : Begins h' t) : h = h' := by
  obtain ⟨n, r, rfl⟩ := ht
  obtain ⟨n', r', heq⟩ := ht'
  obtain ⟨hlen, hhead⟩ := heads_form h hh
  obtain ⟨hlen', hhead'⟩ := heads_form h' hh'
  have hsame : h ++ r = h' ++ r' := by
    obtain ⟨k, rfl⟩ := List.head?_eq_some_iff.1 hhead
    obtain ⟨k', rfl⟩ := List.head?_eq_some_iff.1 hhead'
    exact spaces_inj (by decide) (by decide) (List.cons.inj heq).2
  apply heads_take h hh h' hh'
  rw [← List.take_append_of_le_length hlen, hsame, List.take_append_of_le_length hlen']

/-- What may follow a flow: nothing, the second branch, or the end of the conditional. -/
def Stops (t : Bytes) : Prop := t = [] ∨ Begins elseMark t ∨ Begins endMark t

theorem Begins.breaksLine {h t : Bytes} (ht : Begins h t) : BreaksLine t := by
  obtain ⟨n, r, rfl⟩ := ht
  exact Or.inr ⟨_, rfl⟩

theorem Stops.breaksLine {t : Bytes} (h : Stops t) : BreaksLine t := by
  rcases h with h | h | h
  · exact Or.inl h
  · exact h.breaksLine
  · exact h.breaksLine

/-! ## A text has one flow -/

/-- The name in the place of a condition holds no line feed. -/
def Slot.Calm : Slot → Prop
  | .named name => Bytes.newline ∉ name
  | _ => True

mutual

/-- No type and no name of a part holds a line feed. -/
def Part.Calm : Part → Prop
  | .step type => Bytes.newline ∉ type
  | .single s body => s.Calm ∧ CalmAll body
  | .double s body other => s.Calm ∧ CalmAll body ∧ CalmAll other

/-- No type and no name of a flow holds a line feed. -/
def CalmAll : List Part → Prop
  | [] => True
  | x :: xs => x.Calm ∧ CalmAll xs

end

theorem Slot.Calm.write {s : Slot} (h : s.Calm) : Bytes.newline ∉ s.write := by
  cases s with
  | named name =>
    intro hm
    rcases List.mem_append.1 hm with hm | hm
    · exact h hm
    · revert hm
      decide
  | missing => exact by decide
  | taken => exact List.not_mem_nil

theorem Slot.write_inj {s s' : Slot} (h : s.write = s'.write) : s = s' := by
  have hlen := congrArg List.length h
  have hcall : (("())" : Bytes)).length = 3 := by decide
  have hclose : ((")" : Bytes)).length = 1 := by decide
  cases s <;> cases s' <;> simp only [Slot.write, List.length_append, List.length_nil] at h hlen
  case named.named name name' => rw [List.append_cancel_right h]
  all_goals first | rfl | omega

theorem newline_not_mem_stepCall {type : Bytes} (h : Bytes.newline ∉ type) :
    Bytes.newline ∉ stepCall type := by
  have hends : Bytes.newline ∉ (".Do<" : Bytes) ∧ Bytes.newline ∉ (">()" : Bytes) := by decide
  unfold stepCall
  simp only [List.mem_append, not_or]
  exact ⟨⟨hends.1, h⟩, hends.2⟩

theorem stepCall_inj {type type' : Bytes} (h : stepCall type = stepCall type') : type = type' := by
  unfold stepCall at h
  exact List.append_cancel_left (List.append_cancel_right h)

theorem step_head_ne : (".Do<" : Bytes) ≠ ifMark := by decide

theorem newLine_cancel {pad : Int → Bytes} {d : Int} {s s' t t' : Bytes}
    (h : newLine pad d s ++ t = newLine pad d s' ++ t') : s ++ t = s' ++ t' := by
  unfold newLine at h
  rw [List.append_assoc, List.append_assoc _ s'] at h
  exact List.append_cancel_left h

section Inj

variable {pad : Int → Bytes}

theorem step_append (d : Int) (type u : Bytes) :
    (Part.step type).write pad d ++ u = newLine pad d (stepCall type) ++ u := by rw [Part.write]

theorem single_append (d : Int) (s : Slot) (body : List Part) (u : Bytes) :
    (Part.single s body).write pad d ++ u
      = newLine pad d ifMark ++ (s.write ++ (writeAll pad (d + 1) body
          ++ (newLine pad d endMark ++ u))) := by
  simp only [Part.write, List.append_assoc]

theorem double_append (d : Int) (s : Slot) (body other : List Part) (u : Bytes) :
    (Part.double s body other).write pad d ++ u
      = newLine pad d ifMark ++ (s.write ++ (writeAll pad (d + 1) body
          ++ (newLine pad d elseMark ++ (writeAll pad (d + 1) other
            ++ (newLine pad d endMark ++ u))))) := by
  simp only [Part.write, List.append_assoc]

/-- What a part begins with: the head of a step, or that of a conditional. -/
def Part.head : Part → Bytes
  | .step _ => ".Do<"
  | .single _ _ => ifMark
  | .double _ _ _ => ifMark

theorem head_mem_heads (x : Part) : x.head ∈ heads := by
  cases x
  · show (".Do<" : Bytes) ∈ heads
    decide
  · show ifMark ∈ heads
    decide
  · show ifMark ∈ heads
    decide

theorem head_ne_marks (x : Part) : x.head ≠ elseMark ∧ x.head ≠ endMark := by
  cases x
  · show (".Do<" : Bytes) ≠ elseMark ∧ (".Do<" : Bytes) ≠ endMark
    decide
  · show ifMark ≠ elseMark ∧ ifMark ≠ endMark
    decide
  · show ifMark ≠ elseMark ∧ ifMark ≠ endMark
    decide

variable (hpad : ∀ d, ∃ n, pad d = Bytes.spaces n)

include hpad

theorem begins_newLine (d : Int) (s r t : Bytes) : Begins s (newLine pad d (s ++ r) ++ t) := by
  obtain ⟨n, hn⟩ := hpad d
  exact ⟨n, r ++ t, by simp [newLine, hn]⟩

theorem begins_mark (d : Int) (s t : Bytes) : Begins s (newLine pad d s ++ t) := by
  have h := begins_newLine hpad d s [] t
  rwa [List.append_nil] at h

theorem begins_write (d : Int) (x : Part) (t : Bytes) : Begins x.head (x.write pad d ++ t) := by
  cases x with
  | step type =>
    rw [step_append, stepCall, List.append_assoc]
    exact begins_newLine hpad d _ _ t
  | single s body =>
    rw [single_append]
    exact begins_mark hpad d _ _
  | double s body other =>
    rw [double_append]
    exact begins_mark hpad d _ _

theorem head_eq_of_write_eq {d : Int} {x y : Part} {u u' : Bytes}
    (h : x.write pad d ++ u = y.write pad d ++ u') : x.head = y.head := by
  apply Begins.unique (head_mem_heads x) (head_mem_heads y) (begins_write hpad d x u)
  rw [h]
  exact begins_write hpad d y u'

theorem not_stops_write (d : Int) (x : Part) (t : Bytes) : ¬ Stops (x.write pad d ++ t) := by
  have hx := begins_write hpad d x t
  have hhead := head_mem_heads x
  have hne := head_ne_marks x
  rintro (h | h | h)
  · rw [h] at hx
    obtain ⟨n, r, hx⟩ := hx
    cases hx
  · exact hne.1 (hx.unique hhead (by decide) h)
  · exact hne.2 (hx.unique hhead (by decide) h)

theorem breaksLine_writeAll (d : Int) (xs : List Part) {t : Bytes} (ht : BreaksLine t) :
    BreaksLine (writeAll pad d xs ++ t) := by
  cases xs with
  | nil => exact ht
  | cons x xs =>
    rw [writeAll, List.append_assoc]
    exact (begins_write hpad d x _).breaksLine

/-- After its mark, a conditional is read up to the end of its first line. -/
theorem opened_inj {d : Int} {s s' : Slot} {body body' : List Part} {t t' : Bytes} (hs : s.Calm)
    (hs' : s'.Calm) (ht : BreaksLine t) (ht' : BreaksLine t')
    (h : newLine pad d ifMark ++ (s.write ++ (writeAll pad (d + 1) body ++ t))
      = newLine pad d ifMark ++ (s'.write ++ (writeAll pad (d + 1) body' ++ t'))) :
    s = s' ∧ writeAll pad (d + 1) body ++ t = writeAll pad (d + 1) body' ++ t' := by
  have hline := line_inj hs.write hs'.write (breaksLine_writeAll hpad (d + 1) body ht)
    (breaksLine_writeAll hpad (d + 1) body' ht') (List.append_cancel_left h)
  exact ⟨Slot.write_inj hline.1, hline.2⟩

theorem stops_else (d : Int) (t : Bytes) : Stops (newLine pad d elseMark ++ t) :=
  Or.inr (Or.inl (begins_mark hpad d elseMark t))

theorem stops_end (d : Int) (t : Bytes) : Stops (newLine pad d endMark ++ t) :=
  Or.inr (Or.inr (begins_mark hpad d endMark t))

/-- A second branch does not begin where a conditional ends. -/
theorem end_ne_else (d : Int) (t t' : Bytes) :
    newLine pad d endMark ++ t ≠ newLine pad d elseMark ++ t' := by
  intro h
  have hend := begins_mark hpad d endMark t
  rw [h] at hend
  have hmarks := hend.unique (by decide) (by decide) (begins_mark hpad d elseMark t')
  exact absurd hmarks (by decide)

mutual

/-- A part is read back from its text, up to the next line. -/
theorem write_inj : ∀ (d : Int) (x y : Part) (u u' : Bytes), x.Calm → y.Calm → BreaksLine u →
    BreaksLine u' → x.write pad d ++ u = y.write pad d ++ u' → x = y ∧ u = u'
  | d, .step type, .step type', u, u', hx, hy, hu, hu', h => by
    rw [step_append, step_append] at h
    have hline := line_inj (newline_not_mem_stepCall hx) (newline_not_mem_stepCall hy) hu hu'
      (newLine_cancel h)
    rw [stepCall_inj hline.1]
    exact ⟨rfl, hline.2⟩
  | d, .single s body, .single s' body', u, u', hx, hy, hu, hu', h => by
    rw [single_append, single_append] at h
    obtain ⟨rfl, hbody⟩ := opened_inj hpad hx.1 hy.1 (stops_end hpad d u).breaksLine
      (stops_end hpad d u').breaksLine h
    obtain ⟨rfl, hend⟩ := writeAll_inj (d + 1) body body' _ _ hx.2 hy.2 (stops_end hpad d u)
      (stops_end hpad d u') hbody
    exact ⟨rfl, List.append_cancel_left hend⟩
  | d, .single s body, .double s' body' other', u, u', hx, hy, hu, hu', h => by
    rw [single_append, double_append] at h
    obtain ⟨rfl, hbody⟩ := opened_inj hpad hx.1 hy.1 (stops_end hpad d u).breaksLine
      (stops_else hpad d _).breaksLine h
    obtain ⟨-, hmark⟩ := writeAll_inj (d + 1) body body' _ _ hx.2 hy.2.1 (stops_end hpad d u)
      (stops_else hpad d _) hbody
    exact absurd hmark (end_ne_else hpad d _ _)
  | d, .double s body other, .single s' body', u, u', hx, hy, hu, hu', h => by
    rw [double_append, single_append] at h
    obtain ⟨rfl, hbody⟩ := opened_inj hpad hx.1 hy.1 (stops_else hpad d _).breaksLine
      (stops_end hpad d u').breaksLine h
    obtain ⟨-, hmark⟩ := writeAll_inj (d + 1) body body' _ _ hx.2.1 hy.2 (stops_else hpad d _)
      (stops_end hpad d u') hbody
    exact absurd hmark.symm (end_ne_else hpad d _ _)
  | d, .double s body other, .double s' body' other', u, u', hx, hy, hu, hu', h => by
    rw [double_append, double_append] at h
    obtain ⟨rfl, hbody⟩ := opened_inj hpad hx.1 hy.1 (stops_else hpad d _).breaksLine
      (stops_else hpad d _).breaksLine h
    obtain ⟨rfl, helse⟩ := writeAll_inj (d + 1) body body' _ _ hx.2.1 hy.2.1 (stops_else hpad d _)
      (stops_else hpad d _) hbody
    obtain ⟨rfl, hend⟩ := writeAll_inj (d + 1) other other' _ _ hx.2.2 hy.2.2 (stops_end hpad d u)
      (stops_end hpad d u') (List.append_cancel_left helse)
    exact ⟨rfl, List.append_cancel_left hend⟩
  -- a step and a conditional begin with different heads
  | d, .step type, .single s' body', u, u', hx, hy, hu, hu', h =>
    absurd (head_eq_of_write_eq hpad h) step_head_ne
  | d, .step type, .double s' body' other', u, u', hx, hy, hu, hu', h =>
    absurd (head_eq_of_write_eq hpad h) step_head_ne
  | d, .single s body, .step type', u, u', hx, hy, hu, hu', h =>
    absurd (head_eq_of_write_eq hpad h).symm step_head_ne
  | d, .double s body other, .step type', u, u', hx, hy, hu, hu', h =>
    absurd (head_eq_of_write_eq hpad h).symm step_head_ne

/-- A flow is read back from its text, up to what stops it. -/
theorem writeAll_inj : ∀ (d : Int) (xs ys : List Part) (t t' : Bytes), CalmAll xs → CalmAll ys →
    Stops t → Stops t' → writeAll pad d xs ++ t = writeAll pad d ys ++ t' → xs = ys ∧ t = t'
  | d, [], [], t, t', hx, hy, ht, ht', h => ⟨rfl, h⟩
  | d, [], y :: ys, t, t', hx, hy, ht, ht', h => by
    rw [writeAll, writeAll, List.nil_append, List.append_assoc] at h
    exact absurd (h ▸ ht) (not_stops_write hpad d y _)
  | d, x :: xs, [], t, t', hx, hy, ht, ht', h => by
    rw [writeAll, writeAll, List.nil_append, List.append_assoc] at h
    exact absurd (h ▸ ht') (not_stops_write hpad d x _)
  | d, x :: xs, y :: ys, t, t', hx, hy, ht, ht', h => by
    rw [writeAll, writeAll, List.append_assoc, List.append_assoc] at h
    obtain ⟨rfl, hrest⟩ := write_inj d x y _ _ hx.1 hy.1
      (breaksLine_writeAll hpad d xs ht.breaksLine) (breaksLine_writeAll hpad d ys ht'.breaksLine) h
    obtain ⟨rfl, hstop⟩ := writeAll_inj d xs ys t t' hx.2 hy.2 ht ht' hrest
    exact ⟨rfl, hstop⟩

end

end Inj

/-! ## What a flow keeps -/

mutual

def Part.every : Part → List Part
  | .step type => [.step type]
  | .single s body => .single s body :: everyPart body
  | .double s body other => .double s body other :: (everyPart body ++ everyPart other)

def everyPart : List Part → List Part
  | [] => []
  | x :: xs => x.every ++ everyPart xs

end

theorem everyPart_append (xs ys : List Part) : everyPart (xs ++ ys) = everyPart xs ++ everyPart ys := by
  induction xs with
  | nil => rfl
  | cons x xs ih => rw [List.cons_append, everyPart, everyPart, ih, List.append_assoc]

theorem calmAll_append {xs ys : List Part} (hx : CalmAll xs) (hy : CalmAll ys) :
    CalmAll (xs ++ ys) := by
  induction xs with
  | nil => exact hy
  | cons x xs ih => exact ⟨hx.1, ih hx.2⟩

def Part.isStep : Part → Bool
  | .step _ => true
  | _ => false

/-- Whether the place of the condition of a part stays empty. -/
def Part.lacksName : Part → Bool
  | .step _ => false
  | .single s _ => s = .missing
  | .double s _ _ => s = .missing

/-- No line feed gets into the text: neither from the type of a step nor from the name that a
condition gives. -/
structure Plain (o : Options) (b : Bindings) (n : Node) : Prop where
  step : isWritten o n = true → ∀ type ∈ (stepType b n).toOption, Bytes.newline ∉ type
  condition : n.kind = .condition → Bytes.newline ∉ nameOf o n

instance (o : Options) (b : Bindings) (n : Node) : Decidable (Plain o b n) :=
  decidable_of_iff ((isWritten o n = true → ∀ type ∈ (stepType b n).toOption, Bytes.newline ∉ type) ∧
    (n.kind = .condition → Bytes.newline ∉ nameOf o n)) ⟨fun h => ⟨h.1, h.2⟩, fun h => ⟨h.1, h.2⟩⟩

/-- A flow has as many steps, conditionals and missing conditions as the activities `xs`, and it is
calm when they are plain. -/
structure Keeps (o : Options) (b : Bindings) (xs : List (Int × Node)) (ps : List Part) : Prop where
  steps : xs.countP (isWritten o ·.2) = (everyPart ps).countP Part.isStep
  conditionals : xs.countP (·.2.kind = .conditional) = (everyPart ps).countP (!·.isStep)
  warnings : (xs.flatMap (ownWarning o ·.2)).length = (everyPart ps).countP Part.lacksName
  calm : (∀ x ∈ xs, Plain o b x.2) → CalmAll ps

section Keeps

variable {o : Options} {b : Bindings}

theorem Keeps.nil : Keeps o b [] [] := ⟨rfl, rfl, rfl, fun _ => trivial⟩

theorem Keeps.append {xs ys : List (Int × Node)} {ps qs : List Part} (hx : Keeps o b xs ps)
    (hy : Keeps o b ys qs) : Keeps o b (xs ++ ys) (ps ++ qs) where
  steps := by
    rw [everyPart_append, List.countP_append, List.countP_append, hx.steps, hy.steps]
  conditionals := by
    rw [everyPart_append, List.countP_append, List.countP_append, hx.conditionals, hy.conditionals]
  warnings := by
    rw [everyPart_append, List.flatMap_append, List.length_append, List.countP_append, hx.warnings,
      hy.warnings]
  calm := fun h => calmAll_append (hx.calm fun x hm => h x (List.mem_append_left _ hm))
    (hy.calm fun x hm => h x (List.mem_append_right _ hm))

theorem ownWarning_eq_nil {n : Node} (hk : n.kind ≠ .conditional) : ownWarning o n = [] := by
  unfold ownWarning
  split
  · rename_i hc _
    exact absurd hc hk
  · rfl

/-- A sequence, a branch, a condition or a step that is left out adds nothing to a flow. -/
theorem Keeps.skip {d : Int} {n : Node} {xs : List (Int × Node)} {ps : List Part}
    (hk : n.kind ≠ .conditional) (hw : isWritten o n = false) (h : Keeps o b xs ps) :
    Keeps o b ((d, n) :: xs) ps where
  steps := by rw [List.countP_cons_of_neg (by simp [hw]), h.steps]
  conditionals := by rw [List.countP_cons_of_neg (by simpa using hk), h.conditionals]
  warnings := by rw [List.flatMap_cons, ownWarning_eq_nil hk, List.nil_append, h.warnings]
  calm := fun hp => h.calm fun x hm => hp x (List.mem_cons_of_mem _ hm)

theorem mem_reachedAll {d : Int} {n : Node} {ns : List Node} (h : n ∈ ns) :
    (d, n) ∈ reachedAll d ns := by
  induction ns with
  | nil => cases h
  | cons m ms ih =>
    rw [reachedAll, List.mem_append]
    rcases List.mem_cons.1 h with rfl | h
    · left
      obtain ⟨kind, tag, space, attrs, children⟩ := n
      exact List.mem_cons_self
    · exact Or.inr (ih h)

theorem slotOf_eq_missing (o : Options) (cs : List Node) :
    decide (slotOf o cs = .missing) = lacksCondition o cs := by
  unfold slotOf lacksCondition
  cases (givenName o cs).isEmpty <;> cases leadsToConditional cs <;> simp

/-- A conditional has a warning of its own when the place of its condition stays empty. -/
theorem length_ownWarning {n first : Node} {rest : List Node} (hk : n.kind = .conditional)
    (hn : n.children = first :: rest) :
    (ownWarning o n).length = if slotOf o first.children = .missing then 1 else 0 := by
  have hlacks := slotOf_eq_missing o first.children
  unfold ownWarning
  rw [hk, hn]
  cases h : lacksCondition o first.children <;> simp_all

/-- The name in the place of a condition is the name that one of the conditions gives. -/
theorem slotOf_calm {d : Int} {cs : List Node} (h : ∀ x ∈ reachedAll d cs, Plain o b x.2) :
    (slotOf o cs).Calm := by
  unfold slotOf
  split
  · show Bytes.newline ∉ givenName o cs
    unfold givenName
    cases hlast : (leading cs).getLast? with
    | none => exact List.not_mem_nil
    | some c =>
      have hc := List.mem_of_getLast? hlast
      exact (h (d, c) (mem_reachedAll ((List.takeWhile_prefix _).subset hc))).condition
        (by simpa using List.mem_takeWhile_imp hc)
  · split <;> trivial

theorem Keeps.step {d : Int} {n : Node} {type : Bytes} (hw : isWritten o n = true)
    (ht : stepType b n = .ok type) : Keeps o b [(d, n)] [.step type] := by
  have hk : n.kind = .step := by
    simp [isWritten] at hw
    exact hw.1
  constructor
  · simp [everyPart, Part.every, Part.isStep, hw]
  · simp [everyPart, Part.every, Part.isStep, hk]
  · simp [everyPart, Part.every, Part.lacksName, ownWarning, hk]
  · exact fun h => ⟨(h _ List.mem_cons_self).step hw type (by rw [ht]; rfl), trivial⟩

theorem Keeps.single {d : Int} {n first : Node} {ps : List Part} (hk : n.kind = .conditional)
    (hn : n.children = [first]) (hf : first.kind = .branch)
    (h : Keeps o b (reachedAll (d + 1) first.children) ps) :
    Keeps o b ((d, n) :: (d, first) :: reachedAll (d + 1) first.children)
      [.single (slotOf o first.children) ps] where
  steps := by
    simp [everyPart, Part.every, Part.isStep, isWritten, hk, hf, ← h.steps]
  conditionals := by
    simp [everyPart, Part.every, Part.isStep, hk, hf, h.conditionals]
  warnings := by
    rw [List.flatMap_cons, List.flatMap_cons, List.length_append, length_ownWarning hk hn,
      ownWarning_eq_nil (by simp [hf]), List.nil_append, h.warnings]
    simp [everyPart, Part.every, Part.lacksName, List.countP_cons, Nat.add_comm]
  calm := fun hp => by
    have hin : ∀ x ∈ reachedAll (d + 1) first.children, Plain o b x.2 := fun x hm =>
      hp x (List.mem_cons_of_mem _ (List.mem_cons_of_mem _ hm))
    exact ⟨⟨slotOf_calm hin, h.calm hin⟩, trivial⟩

theorem Keeps.double {d : Int} {n first second : Node} {ps qs : List Part}
    (hk : n.kind = .conditional) (hn : n.children = [first, second]) (hf : first.kind = .branch)
    (hs : second.kind = .branch) (h : Keeps o b (reachedAll (d + 1) first.children) ps)
    (h' : Keeps o b (reachedAll (d + 1) second.children) qs) :
    Keeps o b ((d, n) :: (d, first) :: (reachedAll (d + 1) first.children
        ++ (d, second) :: reachedAll (d + 1) second.children))
      [.double (slotOf o first.children) ps qs] where
  steps := by
    simp [everyPart, Part.every, Part.isStep, isWritten, hk, hf, hs, ← h.steps, ← h'.steps]
  conditionals := by
    simp [everyPart, Part.every, Part.isStep, hk, hf, hs, h.conditionals, h'.conditionals]
  warnings := by
    rw [List.flatMap_cons, List.flatMap_cons, List.flatMap_append, List.flatMap_cons,
      List.length_append, List.length_append, length_ownWarning hk hn,
      ownWarning_eq_nil (by simp [hf]), ownWarning_eq_nil (by simp [hs]), List.nil_append,
      List.length_nil, Nat.zero_add, List.length_append, h.warnings, h'.warnings]
    simp [everyPart, Part.every, Part.lacksName, List.countP_cons, Nat.add_comm]
  calm := fun hp => by
    have hin : ∀ x ∈ reachedAll (d + 1) first.children, Plain o b x.2 := fun x hm =>
      hp x (List.mem_cons_of_mem _ (List.mem_cons_of_mem _ (List.mem_append_left _ hm)))
    have hin' : ∀ x ∈ reachedAll (d + 1) second.children, Plain o b x.2 := fun x hm =>
      hp x (List.mem_cons_of_mem _ (List.mem_cons_of_mem _ (List.mem_append_right _
        (List.mem_cons_of_mem _ hm))))
    exact ⟨⟨slotOf_calm hin, h.calm hin, h'.calm hin'⟩, trivial⟩

theorem Allowed.type_ok {n : Node} (h : Allowed o b n) (hk : n.kind = .step)
    (hf : n.tag ∉ o.faultHandlers) : ∃ type, stepType b n = .ok type := by
  unfold stepType
  by_cases hs : n.space = []
  · exact ⟨n.tag, if_pos (by simp [hs])⟩
  · obtain ⟨ns, hns⟩ := h.resolved hk hf hs
    rw [if_neg (by simpa using hs), hns]
    exact ⟨_, rfl⟩

theorem OpensBranch.items {cs : List Node} (h : OpensBranch o cs) :
    ∀ c ∈ cs, IsActivity c ∨ c.kind = .condition := by
  obtain ⟨conditions, activities, rfl, hc, ha, -⟩ := h
  intro c hm
  rcases List.mem_append.1 hm with hm | hm
  · exact Or.inr (hc c hm)
  · exact Or.inl (ha c hm)

mutual

theorem partsOf_keeps : ∀ (d : Int) (n : Node), IsActivity n ∨ n.kind = .condition →
    (∀ x ∈ reached d n, Allowed o b x.2) → Keeps o b (reached d n) (partsOf o b n)
  | d, .mk .sequence tag space attrs children, hn, h => by
    simp only [reached, partsOf, List.forall_mem_cons] at h ⊢
    apply Keeps.skip (by simp [Node.kind]) (by simp [isWritten, Node.kind])
    exact parts_keeps d children (fun c hc => Or.inl (h.1.inside rfl c hc)) h.2
  | d, .mk .conditional tag space attrs [], hn, h => by
    have hlen := (h _ List.mem_cons_self).branches rfl
    simp [Node.children] at hlen
  | d, .mk .conditional tag space attrs [.mk kind tag₁ space₁ attrs₁ cs], hn, h => by
    have hself := h _ List.mem_cons_self
    obtain rfl : kind = .branch := (hself.branches rfl).2 _ List.mem_cons_self
    simp only [reached, reachedAll, partsOf, List.append_nil, List.forall_mem_cons] at h ⊢
    exact Keeps.single rfl rfl rfl
      (parts_keeps (d + 1) cs (hself.first rfl _ rfl).items h.2.2)
  | d, .mk .conditional tag space attrs
      [.mk kind tag₁ space₁ attrs₁ cs, .mk kind₂ tag₂ space₂ attrs₂ ds], hn, h => by
    have hself := h _ List.mem_cons_self
    obtain rfl : kind = .branch := (hself.branches rfl).2 _ List.mem_cons_self
    obtain rfl : kind₂ = .branch :=
      (hself.branches rfl).2 _ (List.mem_cons_of_mem _ List.mem_cons_self)
    simp only [reached, reachedAll, partsOf, List.append_nil, List.forall_mem_cons,
      List.forall_mem_append, List.cons_append] at h ⊢
    exact Keeps.double rfl rfl rfl rfl
      (parts_keeps (d + 1) cs (hself.first rfl _ rfl).items h.2.2.1)
      (parts_keeps (d + 1) ds (fun c hc => Or.inl (hself.second rfl _ rfl c hc)) h.2.2.2.2)
  | d, .mk .conditional tag space attrs (_ :: _ :: _ :: _), hn, h => by
    have hlen := (h _ List.mem_cons_self).branches rfl
    simp [Node.children] at hlen
  | d, .mk .step tag space attrs children, hn, h => by
    have hself := h _ List.mem_cons_self
    simp only [reached, partsOf]
    by_cases hw : o.faultHandlers.contains (Node.mk .step tag space attrs children).tag
    · rw [if_pos hw]
      exact Keeps.nil.skip (by simp [Node.kind]) (by simpa [isWritten] using fun _ => hw)
    · rw [if_neg hw]
      obtain ⟨type, ht⟩ := hself.type_ok rfl (by simpa using hw)
      rw [ht]
      exact Keeps.step (by simpa [isWritten, Node.kind] using hw) ht
  | d, .mk .condition tag space attrs children, hn, h =>
    Keeps.nil.skip (by simp [Node.kind]) (by simp [isWritten, Node.kind])
  | d, .mk .branch tag space attrs children, hn, h => by
    simp [IsActivity, Node.kind] at hn
  | d, .mk .unknown tag space attrs children, hn, h => by
    simp [IsActivity, Node.kind] at hn

theorem parts_keeps : ∀ (d : Int) (ns : List Node),
    (∀ n ∈ ns, IsActivity n ∨ n.kind = .condition) → (∀ x ∈ reachedAll d ns, Allowed o b x.2) →
    Keeps o b (reachedAll d ns) (parts o b ns)
  | d, [], hn, h => Keeps.nil
  | d, n :: ns, hn, h => by
    rw [reachedAll, List.forall_mem_append] at h
    rw [List.forall_mem_cons] at hn
    exact (partsOf_keeps d n hn.1 h.1).append (parts_keeps d ns hn.2 h.2)

end

end Keeps

/-! ## Expressions with the same text -/

/-- The activities of a definition that are reached are plain. -/
def PlainDocument (o : Options) (doc : Definition.Document) : Prop :=
  ∀ root ∈ doc.root?, ∀ x ∈ reached o.baseDepth root, Plain o doc.bindings x.2

instance (o : Options) (doc : Definition.Document) : Decidable (PlainDocument o doc) :=
  inferInstanceAs (Decidable (∀ root ∈ doc.root?, _))

/-- An expression is the text of the flow of its definition, and its counts are those of the flow. -/
theorem flow_of_expression {o : Options} {doc : Definition.Document} {e : Expression}
    (hd : 0 ≤ o.baseDepth) (h : expression o doc = .ok e) :
    e.text = o.receiver ++ writeAll (wrappedPad o) o.baseDepth (flow o doc) ∧
    e.steps = (everyPart (flow o doc)).countP Part.isStep ∧
    e.conditionals = (everyPart (flow o doc)).countP (!·.isStep) ∧
    e.warnings.length = (everyPart (flow o doc)).countP Part.lacksName ∧
    (PlainDocument o doc → CalmAll (flow o doc)) := by
  obtain ⟨root?, b⟩ := doc
  cases root? with
  | none => cases h
  | some root =>
    by_cases hk : root.kind = .sequence
    · rw [expression_eq o b root hd hk] at h
      obtain ⟨p, q, hp, hq, rfl⟩ := join_eq_ok h
      cases hp
      obtain ⟨kind, tag, space, attrs, children⟩ := root
      simp only [Node.kind] at hk
      subst hk
      have haccounts := lowerNodes_accounts o b o.baseDepth _ children q hq
      obtain ⟨hactivities, hsound⟩ := (succeeds_lowerNodes o b o.baseDepth _ children).1 ⟨q, hq⟩
      have hkeeps := parts_keeps o.baseDepth children (fun n hn => Or.inl (hactivities n hn))
        (fun x hx => (hsound x hx).1)
      have hflow : flow o ⟨some (.mk .sequence tag space attrs children), b⟩ = parts o b children :=
        rfl
      rw [hflow, Expression.text_append, Expression.steps_append, Expression.conditionals_append,
        Expression.warnings_append, haccounts.text, haccounts.steps, haccounts.conditionals,
        haccounts.warnings, ← chain_eq_writeAll, ← hkeeps.steps, ← hkeeps.conditionals,
        ← hkeeps.warnings]
      refine ⟨rfl, Nat.zero_add _, Nat.zero_add _, rfl, fun hplain => hkeeps.calm fun x hx => ?_⟩
      exact hplain _ rfl x (List.mem_cons_of_mem _ hx)
    · unfold expression at h
      simp only at h
      rw [if_pos hk] at h
      cases h

/-- **The text determines the flow.** Two plain definitions that are lowered with the same options
have the same text exactly when they have the same flow, and then they have as many steps,
conditionals and warnings. -/
theorem text_eq_iff_flow_eq (o : Options) (doc₁ doc₂ : Definition.Document) (e₁ e₂ : Expression)
    (hd : 0 ≤ o.baseDepth) (h₁ : expression o doc₁ = .ok e₁) (h₂ : expression o doc₂ = .ok e₂)
    (hplain₁ : PlainDocument o doc₁) (hplain₂ : PlainDocument o doc₂) :
    (e₁.text = e₂.text ↔ flow o doc₁ = flow o doc₂) ∧
    (e₁.text = e₂.text → e₁.steps = e₂.steps ∧ e₁.conditionals = e₂.conditionals ∧
      e₁.warnings.length = e₂.warnings.length) := by
  obtain ⟨htext₁, hsteps₁, hconditionals₁, hwarnings₁, hcalm₁⟩ := flow_of_expression hd h₁
  obtain ⟨htext₂, hsteps₂, hconditionals₂, hwarnings₂, hcalm₂⟩ := flow_of_expression hd h₂
  have hflow : e₁.text = e₂.text → flow o doc₁ = flow o doc₂ := by
    intro heq
    rw [htext₁, htext₂] at heq
    have hwrite := List.append_cancel_left heq
    have hpad : ∀ d, ∃ n, wrappedPad o d = Bytes.spaces n := fun d => ⟨_, rfl⟩
    exact (writeAll_inj hpad o.baseDepth (flow o doc₁) (flow o doc₂) [] [] (hcalm₁ hplain₁)
      (hcalm₂ hplain₂) (Or.inl rfl) (Or.inl rfl)
      (by rw [List.append_nil, List.append_nil, hwrite])).1
  refine ⟨⟨hflow, fun heq => ?_⟩, fun heq => ?_⟩
  · rw [htext₁, htext₂, heq]
  · rw [hsteps₁, hsteps₂, hconditionals₁, hconditionals₂, hwarnings₁, hwarnings₂, hflow heq]
    exact ⟨rfl, rfl, rfl⟩

/-- A conditional whose name looks like a mark, in a sequence of its own and before a step that is
left out. -/
def nested : Node :=
  .mk .sequence "S" [] []
    [.mk .sequence "S" [] []
      [.mk .conditional "C" [] []
        [.mk .branch "B" [] []
          [.mk .condition "K" [] [("Condition", "x())  .EndIf()")] [], .mk .step "A" [] [] []]]],
     .mk .step "Catch" [] [] []]

def unnested : Node :=
  .mk .sequence "S" [] []
    [.mk .conditional "C" [] []
      [.mk .branch "B" [] []
        [.mk .condition "K" [] [] [], .mk .condition "K" [] [("Condition", "x())  .EndIf()")] [],
         .mk .sequence "S" [] [] [.mk .step "A" [] [] []]]]]

theorem nested_flow_eq :
    (⟨"f", 1, 0, "Condition", ["Catch"], false⟩ : Options).baseDepth = 1 ∧
    PlainDocument ⟨"f", 1, 0, "Condition", ["Catch"], false⟩ ⟨some nested, []⟩ ∧
    PlainDocument ⟨"f", 1, 0, "Condition", ["Catch"], false⟩ ⟨some unnested, []⟩ ∧
    flow ⟨"f", 1, 0, "Condition", ["Catch"], false⟩ ⟨some nested, []⟩
      = flow ⟨"f", 1, 0, "Condition", ["Catch"], false⟩ ⟨some unnested, []⟩ := by
  have h₁ : expression ⟨"f", 1, 0, "Condition", ["Catch"], false⟩ ⟨some nested, []⟩
      = .ok ⟨"f\n.If(() => x())  .EndIf()())\n.Do<A>()\n.EndIf()", [], 1, 1⟩ := by decide +kernel
  have h₂ : expression ⟨"f", 1, 0, "Condition", ["Catch"], false⟩ ⟨some unnested, []⟩
      = .ok ⟨"f\n.If(() => x())  .EndIf()())\n.Do<A>()\n.EndIf()", [], 1, 1⟩ := by decide +kernel
  have hplain₁ : PlainDocument ⟨"f", 1, 0, "Condition", ["Catch"], false⟩ ⟨some nested, []⟩ := by
    decide +kernel
  have hplain₂ : PlainDocument ⟨"f", 1, 0, "Condition", ["Catch"], false⟩ ⟨some unnested, []⟩ := by
    decide +kernel
  have hboth := text_eq_iff_flow_eq _ _ _ _ _ (by decide) h₁ h₂ hplain₁ hplain₂
  exact ⟨rfl, hplain₁, hplain₂, hboth.1.1 rfl⟩

end Flowsmith.Flow
