import Flowsmith.Proofs.Source.Chunk
import Flowsmith.Proofs.Source.Written

/-!
# Types as they are written

* `Name` : an identifier that is no keyword of a declaration;
* `TypeText` : dotted names with type arguments, types with their marks, and lists of types;
* `TypeText.stands`, `TypeText.flat_place` : the tokens of a type, and its text when it is cut out;
* `TypeText.afterType?_place` : the scanner finds the end of a type;
* `AngleBalanced`, `Unsplit` : type arguments and the commas between them.
-/

namespace Flowsmith.Source

def keptWords : List Bytes := reservedWords ++ paramWords

/-- An identifier that is no keyword of a declaration. -/
structure Name where
  text : Bytes
  isWord : IsWord text
  free : text ∉ keptWords

def Name.ofLetters (w : Bytes) (h : (isLetters w && !keptWords.contains w) = true) : Name :=
  have h' : isLetters w = true ∧ w ∉ keptWords := by simpa using h
  ⟨w, isWord_of_letters h'.1, h'.2⟩

/-- Dotted names, types, and types with commas between them. -/
inductive Grade where
  | path
  | type
  | list

inductive TypeText : Grade → Type where
  | name (w : Name) : TypeText .path
  | member (p : TypeText .path) (w : Name) : TypeText .path
  | generic (p : TypeText .path) (args : TypeText .list) : TypeText .path
  | plain (p : TypeText .path) : TypeText .type
  | optional (t : TypeText .type) : TypeText .type
  | array (t : TypeText .type) : TypeText .type
  | one (t : TypeText .type) : TypeText .list
  | more (t : TypeText .type) (ts : TypeText .list) : TypeText .list

def TypeText.chunks {g : Grade} : TypeText g → List Chunk
  | name w => [.word w.text]
  | member p w => p.chunks ++ [.mark ".", .word w.text]
  | generic p args => p.chunks ++ (.mark "<" :: args.chunks ++ [.mark ">"])
  | plain p => p.chunks
  | optional t => t.chunks ++ [.mark "?"]
  | array t => t.chunks ++ [.mark "[", .mark "]"]
  | one t => t.chunks
  | more t ts => t.chunks ++ (.mark "," :: .gap " " :: ts.chunks)

def TypeText.text {g : Grade} (t : TypeText g) : Bytes := render t.chunks

/-! ## Names -/

namespace Name

def token (w : Name) (pos : Nat) : Token := ⟨.word, w.text, pos⟩

theorem isName_token (w : Name) (pos : Nat) : (w.token pos).isName = true := isName_of_isWord w.isWord

theorem text_ne_nil (w : Name) : w.text ≠ [] := by
  obtain ⟨c, b, h, -⟩ := w.isWord.lexeme
  simp [h]

theorem not_reserved (w : Name) : w.text ∉ reservedWords :=
  fun h => w.free (List.mem_append_left _ h)

theorem token_not_is (w : Name) (pos : Nat) {v : Bytes} (hv : v ∈ markTexts ∨ v ∈ keptWords) :
    (w.token pos).is v = false := by
  rcases hv with hv | hv
  · exact isName_not_is (w.isName_token pos) hv
  · exact not_is_of_text_ne fun h : w.text = v => w.free (h ▸ hv)

theorem steady_token (w : Name) (pos : Nat) : Steady [w.token pos] :=
  steady_inert (isInert_of_isName (w.isName_token pos)) (w.token_not_is pos (Or.inr (by decide)))

end Name

/-! ## Tokens of types -/

def typeMarks : List Bytes := [".", "<", ">", "?", "[", "]", ","]

/-- Marks of one byte that are read by themselves. -/
def loneMarks : List Bytes :=
  ["(", ")", "[", "]", Bytes.leftBrace, Bytes.rightBrace, "<", ">", ".", ":", ";", ",", "?"]

theorem loneMarks_form {m : Bytes} (h : m ∈ loneMarks) :
    ∃ c, m = [c] ∧ isPlainMark c = true ∧ c ≠ '#'.toUInt8 ∧ isStop c = true := by
  simp only [loneMarks, List.mem_cons, List.not_mem_nil, or_false] at h
  rcases h with rfl | rfl | rfl | rfl | rfl | rfl | rfl | rfl | rfl | rfl | rfl | rfl | rfl
  all_goals exact ⟨_, rfl, by decide, by decide, by decide⟩

theorem stands_mark {m : Bytes} (h : m ∈ loneMarks) (r : Bytes) : (Chunk.mark m).Stands r := by
  obtain ⟨c, hc, hplain, hsharp, -⟩ := loneMarks_form h
  exact ⟨c, hc, hplain, hsharp⟩

theorem neat_mark {m : Bytes} (h : m ∈ loneMarks) (r : Bytes) : (Chunk.mark m).Neat r := by
  obtain ⟨c, hc, hplain, -, -⟩ := loneMarks_form h
  exact ⟨c, hc, hplain⟩

theorem stops_mark {m : Bytes} (h : m ∈ loneMarks) (ps : List Chunk) (r : Bytes) :
    Stops (render (.mark m :: ps) ++ r) := by
  obtain ⟨c, rfl, -, -, hstop⟩ := loneMarks_form h
  exact stops_cons _ hstop

theorem stands_space (r : Bytes) : (Chunk.gap " ").Stands r := by
  exact List.all_eq_true.1 rfl

theorem each_mono {P Q : Bytes → Chunk → Prop} (h : ∀ r p, P r p → Q r p) {ps : List Chunk} {r : Bytes}
    (hps : Each P ps r) : Each Q ps r := by
  induction ps with
  | nil => trivial
  | cons p ps ih => exact ⟨h _ _ hps.1, ih hps.2⟩

namespace TypeText

theorem chunks_head {g : Grade} (t : TypeText g) : ∃ (w : Name) (ps : List Chunk),
    t.chunks = .word w.text :: ps := by
  induction t with
  | name w => exact ⟨w, [], rfl⟩
  | member p w ih => obtain ⟨w', ps, h⟩ := ih; exact ⟨w', _, by rw [chunks, h]; rfl⟩
  | generic p args ih => obtain ⟨w', ps, h⟩ := ih; exact ⟨w', _, by rw [chunks, h]; rfl⟩
  | plain p ih => exact ih
  | optional t ih => obtain ⟨w', ps, h⟩ := ih; exact ⟨w', _, by rw [chunks, h]; rfl⟩
  | array t ih => obtain ⟨w', ps, h⟩ := ih; exact ⟨w', _, by rw [chunks, h]; rfl⟩
  | one t ih => exact ih
  | more t ts ih => obtain ⟨w', ps, h⟩ := ih; exact ⟨w', _, by rw [chunks, h]; rfl⟩

/-- A type stands in front of everything that ends words, and its blanks are single spaces. -/
theorem tidy {g : Grade} (t : TypeText g) {r : Bytes} (hr : Stops r) :
    Each (fun r p => p.Stands r ∧ p.Neat r) t.chunks r := by
  have hmark : ∀ {m : Bytes} (r : Bytes), m ∈ loneMarks →
      (Chunk.mark m).Stands r ∧ (Chunk.mark m).Neat r :=
    fun r h => ⟨stands_mark h r, neat_mark h r⟩
  induction t generalizing r with
  | name w => exact ⟨⟨⟨w.isWord, hr⟩, w.isWord, hr⟩, trivial⟩
  | member p w ih =>
    exact (each_append _ _ _).2 ⟨ih (stops_mark (by decide) _ _), hmark _ (by decide),
      ⟨⟨w.isWord, hr⟩, w.isWord, hr⟩, trivial⟩
  | generic p args ihp iha =>
    refine (each_append _ _ _).2 ⟨ihp (stops_mark (by decide) _ _), hmark _ (by decide), ?_⟩
    exact (each_append _ _ _).2 ⟨iha (stops_mark (by decide) _ _), hmark _ (by decide), trivial⟩
  | plain p ih => exact ih hr
  | optional t ih =>
    exact (each_append _ _ _).2 ⟨ih (stops_mark (by decide) _ _), hmark _ (by decide), trivial⟩
  | array t ih =>
    exact (each_append _ _ _).2 ⟨ih (stops_mark (by decide) _ _), hmark _ (by decide),
      hmark _ (by decide), trivial⟩
  | one t ih => exact ih hr
  | more t ts iht ihts =>
    refine (each_append _ _ _).2 ⟨iht (stops_mark (by decide) _ _), hmark _ (by decide), ?_, ihts hr⟩
    -- after the space there is a name
    obtain ⟨w, ps, hts⟩ := ts.chunks_head
    have hfirst := ihts hr
    rw [hts] at hfirst ⊢
    obtain ⟨⟨⟨hw, hstop⟩, -⟩, -⟩ := hfirst
    refine ⟨stands_space _, rfl, ?_, ?_⟩
    · simp [Chunk.text, w.text_ne_nil]
    · rw [render_cons, List.append_assoc]
      exact blankSize_word hw (List.nil_append _).symm w.text_ne_nil hstop

theorem stands {g : Grade} (t : TypeText g) {r : Bytes} (hr : Stops r) :
    Each (fun r p => p.Stands r) t.chunks r := each_mono (fun _ _ h => h.1) (t.tidy hr)

theorem collapse_text {g : Grade} (t : TypeText g) : t.text.collapse = t.text := by
  have hneat : Each (fun r p => p.Neat r) t.chunks [] :=
    each_mono (fun _ _ h => h.2) (t.tidy fun x hx => by cases hx)
  obtain ⟨w, ps, hps⟩ := t.chunks_head
  have hfirst := hneat
  rw [hps] at hfirst
  obtain ⟨⟨hw, hstop⟩, -⟩ := hfirst
  refine collapse_render hneat ?_ ?_
  · simp [hps, Chunk.text, w.text_ne_nil]
  · rw [List.append_nil] at hstop
    rw [hps, render_cons]
    exact blankSize_word hw (List.nil_append _).symm w.text_ne_nil hstop

theorem closes_chunks {g : Grade} (t : TypeText g) : Closes t.chunks := by
  induction t with
  | name w => exact closes_word w.text
  | member p w => exact ((closes_word w.text).append [.mark "."]).append p.chunks
  | generic p args => exact ((closes_mark ">").append (.mark "<" :: args.chunks)).append p.chunks
  | plain p ih => exact ih
  | optional t => exact (closes_mark "?").append t.chunks
  | array t => exact ((closes_mark "]").append [.mark "["]).append t.chunks
  | one t ih => exact ih
  | more t ts _ ih => exact (ih.append [.mark ",", .gap " "]).append t.chunks

theorem spans {g : Grade} (t : TypeText g) (pos : Nat) : Spans pos t.text.length (place pos t.chunks) := by
  obtain ⟨w, ps, hps⟩ := t.chunks_head
  have hcloses := t.closes_chunks
  rw [text, hps]
  rw [hps] at hcloses
  exact spans_place hcloses pos

/-- **The text of a type is cut out as it was written.** -/
theorem flat_place {g : Grade} (t : TypeText g) {src : Bytes} {pos : Nat} (h : At src pos t.text) :
    flat src.slice (place pos t.chunks) = t.text := by
  rw [flat, raw_of_spans h (t.spans pos), t.collapse_text]

end TypeText

/-! ## Type arguments -/

/-- Tokens that close as many angle brackets as they open, when one is open in front of them. -/
def AngleBalanced (xs : List Token) : Prop :=
  ∀ d ys, splitPairFrom "<" ">" (d + 1) (xs ++ ys)
    = (xs ++ (splitPairFrom "<" ">" (d + 1) ys).1, (splitPairFrom "<" ">" (d + 1) ys).2)

theorem AngleBalanced.append {xs ys : List Token} (hx : AngleBalanced xs) (hy : AngleBalanced ys) :
    AngleBalanced (xs ++ ys) := by
  intro d zs
  rw [List.append_assoc, hx, hy, List.append_assoc]

theorem angleBalanced_token {t : Token} (hopen : t.is "<" = false) (hclose : t.is ">" = false) :
    AngleBalanced [t] := by
  intro d ys
  rw [List.singleton_append, splitPairFrom, if_neg (by simp [hopen]), if_neg (by simp [hclose])]
  rfl

theorem AngleBalanced.splitPair {xs : List Token} (h : AngleBalanced xs) {t u : Token} (ht : t.is "<" = true)
    (hu : u.is ">" = true) (ys : List Token) :
    splitPair "<" ">" (t :: xs ++ u :: ys) = (t :: xs ++ [u], ys) := by
  unfold Source.splitPair
  have hu' : u.is "<" = false := Token.not_is hu (by decide)
  rw [List.cons_append, splitPairFrom, if_pos ht, h 0 (u :: ys), splitPairFrom, if_neg (by simp [hu']),
    if_pos hu, if_pos (by omega)]
  rfl

theorem AngleBalanced.pair {xs : List Token} (h : AngleBalanced xs) {t u : Token} (ht : t.is "<" = true)
    (hu : u.is ">" = true) : AngleBalanced (t :: xs ++ [u]) := by
  intro d ys
  have hu' : u.is "<" = false := Token.not_is hu (by decide)
  rw [List.append_assoc, List.cons_append, splitPairFrom, if_pos ht, List.singleton_append, h (d + 1),
    splitPairFrom, if_neg (by simp [hu']), if_pos hu, if_neg (by omega)]
  simp

/-! ## Commas -/

def prepend (xs : List Token) : List (List Token) → List (List Token)
  | [] => [xs]
  | g :: gs => (xs ++ g) :: gs

theorem prepend_append (xs ys : List Token) (gs : List (List Token)) :
    prepend (xs ++ ys) gs = prepend xs (prepend ys gs) := by
  cases gs <;> simp [prepend]

theorem commaGroups_cons (d : Int) (t : Token) (ts : List Token) : commaGroups d (t :: ts)
    = if d = 0 ∧ t.is "," then [] :: commaGroups d ts
      else prepend [t] (commaGroups (d + paramDelta t) ts) := by
  rw [commaGroups]
  split
  · rfl
  · cases commaGroups (d + paramDelta t) ts <;> rfl

/-- Tokens without a comma that separates, when `d` brackets are open in front of them. -/
def Unsplit (d : Int) (xs : List Token) : Prop :=
  ∀ ys, commaGroups d (xs ++ ys) = prepend xs (commaGroups d ys)

theorem unsplit_nil (d : Int) : Unsplit d [] := by
  intro ys
  cases h : commaGroups d ys with
  | nil =>
    cases ys with
    | nil => cases h
    | cons t ys =>
      rw [commaGroups_cons] at h
      split at h
      · cases h
      · cases hgs : commaGroups (d + paramDelta t) ys <;> rw [hgs] at h <;> cases h
  | cons g gs => exact h

theorem Unsplit.append {d : Int} {xs ys : List Token} (hx : Unsplit d xs) (hy : Unsplit d ys) :
    Unsplit d (xs ++ ys) := by
  intro zs
  rw [List.append_assoc, hx, hy, prepend_append]

theorem unsplit_token {d : Int} {t : Token} (hdelta : paramDelta t = 0)
    (hcomma : d ≠ 0 ∨ t.is "," = false) : Unsplit d [t] := by
  intro ys
  rw [List.singleton_append, commaGroups_cons, hdelta, Int.add_zero, if_neg]
  rintro ⟨hd, hc⟩
  rcases hcomma with h | h
  · exact h hd
  · rw [h] at hc
    cases hc

/-- The brackets that are counted between the commas of parameters. -/
theorem Unsplit.pair {d : Int} {xs : List Token} (h : Unsplit (d + 1) xs) {t u : Token}
    (ht : paramDelta t = 1) (hu : paramDelta u = -1) (hcomma : t.is "," = false ∧ u.is "," = false) :
    Unsplit d (t :: xs ++ [u]) := by
  intro ys
  rw [List.append_assoc, List.cons_append, commaGroups_cons, if_neg (by simp [hcomma.1]), ht,
    List.singleton_append, h, commaGroups_cons, if_neg (by simp [hcomma.2]), hu,
    show d + 1 + -1 = d by omega, ← prepend_append, ← prepend_append]
  rfl

namespace TypeText

/-- What holds of names and marks, and of what is put together from them, holds of types. -/
theorem place_induction {P : List Token → Prop} (append : ∀ {xs ys}, P xs → P ys → P (xs ++ ys))
    (name : ∀ (w : Name) pos, P [w.token pos])
    (mark : ∀ m ∈ ([".", "?", ","] : List Bytes), ∀ pos, P [⟨.mark, m, pos⟩])
    (angles : ∀ {xs} pos pos', P xs → P (⟨.mark, "<", pos⟩ :: xs ++ [⟨.mark, ">", pos'⟩]))
    (squares : ∀ pos pos', P [⟨.mark, "[", pos⟩, ⟨.mark, "]", pos'⟩]) {g : Grade} (t : TypeText g)
    (pos : Nat) : P (place pos t.chunks) := by
  induction t generalizing pos with
  | name w => exact name w pos
  | member p w ih =>
    rw [chunks, place_append]
    exact append (ih pos) (append (mark _ (by decide) _) (name w _))
  | generic p args ihp iha =>
    rw [chunks, place_append]
    refine append (ihp pos) ?_
    rw [List.cons_append, place_cons, place_append]
    exact angles _ _ (iha _)
  | plain p ih => exact ih pos
  | optional t ih =>
    rw [chunks, place_append]
    exact append (ih pos) (mark _ (by decide) _)
  | array t ih =>
    rw [chunks, place_append]
    exact append (ih pos) (squares _ _)
  | one t ih => exact ih pos
  | more t ts iht ihts =>
    rw [chunks, place_append]
    exact append (iht pos) (append (mark _ (by decide) _) (ihts _))

theorem nested_place {g : Grade} (t : TypeText g) (pos : Nat) : Nested (place pos t.chunks) := by
  refine place_induction Nested.append (fun w pos => ?_) (fun m hm pos => ?_) (fun pos pos' hx => ?_)
    (fun pos pos' => rfl) t pos
  · obtain ⟨hopen, hclose⟩ := plain_of_isName (w.isName_token pos)
    exact nested_nil.cons hopen hclose
  · simp only [List.mem_cons, List.not_mem_nil, or_false] at hm
    rcases hm with rfl | rfl | rfl <;> rfl
  · have hopen : Nested [⟨.mark, "<", pos⟩] := rfl
    have hclose : Nested [⟨.mark, ">", pos'⟩] := rfl
    exact (hopen.append hx).append hclose

theorem steady_place {g : Grade} (t : TypeText g) (pos : Nat) : Steady (place pos t.chunks) := by
  refine place_induction Steady.append (fun w pos => w.steady_token pos) (fun m hm pos => ?_)
    (fun pos pos' hx => ?_) (fun pos pos' => ?_) t pos
  · simp only [List.mem_cons, List.not_mem_nil, or_false] at hm
    rcases hm with rfl | rfl | rfl <;> exact steady_inert rfl rfl
  · exact ((steady_inert (t := ⟨.mark, "<", pos⟩) rfl rfl).append hx).append
      (steady_inert (t := ⟨.mark, ">", pos'⟩) rfl rfl)
  · exact steady_pair mem_squares (by decide) rfl rfl nested_nil

theorem sound_place {g : Grade} (t : TypeText g) (pos : Nat) :
    ∀ x ∈ place pos t.chunks, x.isWord = true → x.isName = true := by
  have happend : ∀ {xs ys : List Token}, (∀ x ∈ xs, x.isWord = true → x.isName = true) →
      (∀ x ∈ ys, x.isWord = true → x.isName = true) → ∀ x ∈ xs ++ ys, x.isWord = true → x.isName = true :=
    fun hx hy x hmem => (List.mem_append.1 hmem).elim (hx x) (hy x)
  have hmark : ∀ m pos, ∀ x ∈ [(⟨.mark, m, pos⟩ : Token)], x.isWord = true → x.isName = true := by
    intro m pos x hx hw
    rw [List.mem_singleton.1 hx] at hw
    cases hw
  refine place_induction (P := fun xs => ∀ x ∈ xs, x.isWord = true → x.isName = true) happend
    (fun w pos x hx _ => ?_) (fun m _ pos => hmark m pos)
    (fun pos pos' hx => happend (happend (hmark "<" pos) hx) (hmark ">" pos'))
    (fun pos pos' => happend (hmark "[" pos) (hmark "]" pos')) t pos
  rw [List.mem_singleton.1 hx]
  exact w.isName_token pos

theorem angleBalanced_place {g : Grade} (t : TypeText g) (pos : Nat) :
    AngleBalanced (place pos t.chunks) := by
  refine place_induction AngleBalanced.append (fun w pos => ?_) (fun m hm pos => ?_)
    (fun pos pos' hx => hx.pair rfl rfl) (fun pos pos' => ?_) t pos
  · exact angleBalanced_token (w.token_not_is pos (Or.inl (by decide)))
      (w.token_not_is pos (Or.inl (by decide)))
  · simp only [List.mem_cons, List.not_mem_nil, or_false] at hm
    rcases hm with rfl | rfl | rfl <;> exact angleBalanced_token rfl rfl
  · exact (angleBalanced_token (t := ⟨.mark, "[", pos⟩) rfl rfl).append
      (angleBalanced_token (t := ⟨.mark, "]", pos'⟩) rfl rfl)

def typeStops : List Bytes := ["=", ";", "(", Bytes.leftBrace, "where"]

theorem not_is_place {g : Grade} (t : TypeText g) (pos : Nat) :
    ∀ x ∈ place pos t.chunks, ∀ v ∈ typeStops, x.is v = false := by
  have hname : ∀ v ∈ typeStops, v ∈ markTexts ∨ v ∈ keptWords := by decide
  have hmark : ∀ m ∈ typeMarks, ∀ pos, ∀ x ∈ [(⟨.mark, m, pos⟩ : Token)], ∀ v ∈ typeStops,
      x.is v = false := by
    intro m hm pos x hx v hv
    have hne : ∀ m ∈ typeMarks, ∀ v ∈ typeStops, m ≠ v := by decide
    rw [List.mem_singleton.1 hx]
    exact Token.not_is (v := m) (by simp [Token.is]) (hne m hm v hv)
  have happend : ∀ {xs ys : List Token}, (∀ x ∈ xs, ∀ v ∈ typeStops, x.is v = false) →
      (∀ x ∈ ys, ∀ v ∈ typeStops, x.is v = false) → ∀ x ∈ xs ++ ys, ∀ v ∈ typeStops, x.is v = false := by
    intro xs ys hx hy x hmem
    rcases List.mem_append.1 hmem with h | h
    · exact hx x h
    · exact hy x h
  refine place_induction (P := fun xs => ∀ x ∈ xs, ∀ v ∈ typeStops, x.is v = false) happend
    (fun w pos => ?_) (fun m hm pos => hmark m ?_ pos) (fun pos pos' hx => ?_) (fun pos pos' => ?_) t pos
  · intro x hx v hv
    rw [List.mem_singleton.1 hx]
    exact w.token_not_is pos (hname v hv)
  · revert m
    decide
  · exact happend (happend (hmark "<" (by decide) pos) hx) (hmark ">" (by decide) pos')
  · exact happend (hmark "[" (by decide) pos) (hmark "]" (by decide) pos')

theorem unsplit_place {g : Grade} (t : TypeText g) (pos : Nat) {d : Int} (hd : 0 ≤ d)
    (hlist : g = .list → 0 < d) : Unsplit d (place pos t.chunks) := by
  have hname : ∀ (w : Name) (pos : Nat) (d : Int), Unsplit d [w.token pos] := by
    intro w pos d
    refine unsplit_token ?_ (Or.inr (w.token_not_is pos (Or.inl (by decide))))
    have hnot : ∀ v ∈ markTexts, (w.token pos).is v = false := fun v hv => w.token_not_is pos (Or.inl hv)
    simp only [paramDelta, hnot "(" (by decide), hnot "[" (by decide), hnot Bytes.leftBrace (by decide),
      hnot "<" (by decide), hnot ")" (by decide), hnot "]" (by decide), hnot Bytes.rightBrace (by decide),
      hnot ">" (by decide)]
    rfl
  induction t generalizing pos d with
  | name w => exact hname w pos d
  | member p w ih =>
    rw [chunks, place_append]
    exact (ih pos hd (by simp)).append
      ((unsplit_token (t := ⟨.mark, ".", _⟩) rfl (Or.inr rfl)).append (hname w _ d))
  | generic p args ihp iha =>
    rw [chunks, place_append, List.cons_append, place_cons, place_append]
    refine (ihp pos hd (by simp)).append ?_
    exact (iha _ (by omega) fun _ => by omega).pair (t := ⟨.mark, "<", _⟩) (u := ⟨.mark, ">", _⟩) rfl rfl
      ⟨rfl, rfl⟩
  | plain p ih => exact ih pos hd (by simp)
  | optional t ih =>
    rw [chunks, place_append]
    exact (ih pos hd (by simp)).append (unsplit_token (t := ⟨.mark, "?", _⟩) rfl (Or.inr rfl))
  | array t ih =>
    rw [chunks, place_append]
    exact (ih pos hd (by simp)).append ((unsplit_nil _).pair (t := ⟨.mark, "[", _⟩)
      (u := ⟨.mark, "]", _⟩) rfl rfl ⟨rfl, rfl⟩)
  | one t ih => exact ih pos hd (by simp)
  | more t ts iht ihts =>
    have hpos := hlist rfl
    rw [chunks, place_append]
    exact (iht pos hd (by simp)).append
      ((unsplit_token (t := ⟨.mark, ",", _⟩) rfl (Or.inl (by omega))).append (ihts _ hd fun _ => hpos))

/-! ## The end of a type -/

theorem afterTypeName_angles {xs : List Token} (h : AngleBalanced xs) {t u : Token}
    (ht : t.is "<" = true) (hu : u.is ">" = true) (zs : List Token) :
    afterTypeName (t :: (xs ++ u :: zs)) = afterTypeName zs := by
  have hpair := h.splitPair ht hu zs
  rw [List.cons_append] at hpair
  have hdot : t.is "." = false := Token.not_is ht (by decide)
  have hcolon : t.is ":" = false := Token.not_is ht (by decide)
  rw [afterTypeName, if_neg (by simp [hdot]), if_neg (by simp [hcolon]), if_pos ht, hpair]

/-- The rest of a dotted name is passed over. -/
theorem afterTypeName_path : (p : TypeText .path) → ∀ (pos : Nat), ∃ (w : Name) (tail : List Token),
    place pos p.chunks = w.token pos :: tail ∧ ∀ zs, afterTypeName (tail ++ zs) = afterTypeName zs
  | name w, pos => ⟨w, [], rfl, fun _ => rfl⟩
  | member p w, pos => by
    obtain ⟨w₀, tail, hplace, htail⟩ := afterTypeName_path p pos
    refine ⟨w₀, _, by rw [chunks, place_append, hplace, List.cons_append], fun zs => ?_⟩
    rw [List.append_assoc, htail]
    change afterTypeName (⟨.mark, ".", _⟩ :: w.token _ :: zs) = _
    rw [afterTypeName, if_pos (by rfl)]
    rfl
  | generic p args, pos => by
    obtain ⟨w₀, tail, hplace, htail⟩ := afterTypeName_path p pos
    refine ⟨w₀, _, by rw [chunks, place_append, hplace, List.cons_append], fun zs => ?_⟩
    rw [List.append_assoc, htail]
    simp only [List.cons_append, place_cons, place_append, place_nil, Chunk.tokens, List.append_assoc,
      List.nil_append, List.append_nil]
    exact afterTypeName_angles (args.angleBalanced_place _) rfl rfl zs

/-- Marks that are passed over at the end of a type. -/
def PassedMarks (ms : List Chunk) : Prop :=
  ∀ pos, (∀ zs, afterTypeMarks (place pos ms ++ zs) = afterTypeMarks zs) ∧
    ∀ x, (place pos ms).head? = some x → x.is "." = false ∧ x.is ":" = false ∧ x.is "<" = false

theorem PassedMarks.append {ms ns : List Chunk} (hm : PassedMarks ms) (hn : PassedMarks ns) :
    PassedMarks (ms ++ ns) := by
  intro pos
  rw [place_append]
  refine ⟨fun zs => by rw [List.append_assoc, (hm _).1, (hn _).1], fun x hx => ?_⟩
  cases hhead : place pos ms with
  | nil =>
    rw [hhead] at hx
    exact (hn _).2 x hx
  | cons y ys =>
    rw [hhead] at hx
    exact (hm pos).2 x (by rw [hhead]; exact hx)

theorem passedMarks_optional : PassedMarks [.mark "?"] := by
  refine fun pos => ⟨fun zs => ?_, fun x hx => by cases hx; exact ⟨rfl, rfl, rfl⟩⟩
  change afterTypeMarks (⟨.mark, "?", pos⟩ :: zs) = _
  rw [afterTypeMarks, if_pos (by rfl)]

theorem passedMarks_array : PassedMarks [.mark "[", .mark "]"] := by
  refine fun pos => ⟨fun zs => ?_, fun x hx => by cases hx; exact ⟨rfl, rfl, rfl⟩⟩
  have hpair : splitPair "[" "]" (⟨.mark, "[", pos⟩ :: ⟨.mark, "]", pos + 1⟩ :: zs) = (_, zs) :=
    splitPair_nested mem_squares rfl nested_nil rfl zs
  change afterTypeMarks (⟨.mark, "[", pos⟩ :: ⟨.mark, "]", pos + 1⟩ :: zs) = _
  rw [afterTypeMarks, if_neg (by exact Bool.false_ne_true), if_pos (by rfl), hpair]

theorem chunks_type : (t : TypeText .type) → ∃ (p : TypeText .path) (ms : List Chunk),
    t.chunks = p.chunks ++ ms ∧ PassedMarks ms
  | plain p =>
    ⟨p, [], (List.append_nil _).symm, fun pos => ⟨fun _ => rfl, fun x hx => by cases hx⟩⟩
  | optional t => by
    obtain ⟨p, ms, hms, hpass⟩ := chunks_type t
    exact ⟨p, ms ++ [.mark "?"], by rw [chunks, hms, List.append_assoc], hpass.append passedMarks_optional⟩
  | array t => by
    obtain ⟨p, ms, hms, hpass⟩ := chunks_type t
    exact ⟨p, ms ++ [.mark "[", .mark "]"], by rw [chunks, hms, List.append_assoc],
      hpass.append passedMarks_array⟩

/-- **The scanner finds the end of a type.** -/
theorem afterType?_place (t : TypeText .type) (pos : Nat) {word : Token} (hword : word.isName = true)
    (rest : List Token) : afterType? (place pos t.chunks ++ word :: rest) = some (word :: rest) := by
  obtain ⟨p, ms, hms, hpass⟩ := t.chunks_type
  obtain ⟨w, tail, hp, htail⟩ := p.afterTypeName_path pos
  obtain ⟨hmarks, hhead⟩ := hpass (pos + (render p.chunks).length)
  have hstop : ∀ x zs, x.is "." = false ∧ x.is ":" = false ∧ x.is "<" = false →
      afterTypeName (x :: zs) = x :: zs := by
    rintro x zs ⟨hdot, hcolon, hless⟩
    rw [afterTypeName, hdot, hcolon, hless]
    rfl
  have hname : afterTypeName (place (pos + (render p.chunks).length) ms ++ word :: rest)
      = place (pos + (render p.chunks).length) ms ++ word :: rest := by
    cases hms : place (pos + (render p.chunks).length) ms with
    | nil => exact afterTypeName_of_isName rest hword
    | cons x xs => exact hstop x _ (hhead x (by rw [hms]; rfl))
  rw [hms, place_append, hp, List.append_assoc, List.cons_append, afterType?,
    w.token_not_is pos (Or.inl (by decide)), if_neg (by simp), if_pos (by rfl), htail, hname, hmarks,
    afterTypeMarks_of_isName rest hword]

end TypeText

end Flowsmith.Source
