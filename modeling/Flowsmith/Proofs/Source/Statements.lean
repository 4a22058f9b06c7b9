import Flowsmith.Proofs.Source.Parts
import Flowsmith.Proofs.Source.ReadBack
import Flowsmith.Proofs.Source.Reads
import Flowsmith.Proofs.Source.Tiling
import Flowsmith.Proofs.Source.Written

/-!
# The statements of a method

The statements of a method are cut out of its source, and stand on lines of their own where they are
written again. They are read there as they were.

* `SelfContained` : texts that close, read by themselves, what they open;
* `bodyTokens`, `PlainBody` : the tokens of the statements, and those that can stand on lines of their own;
* `selfContained_body` : the statements of a method are closed by themselves.
-/

namespace Flowsmith.Source

/-! ## Closed texts -/

/-- A text that closes, read by itself, the brackets, literals and comments it opens. -/
structure SelfContained (s : Bytes) : Prop where
  nested : Nested (tokens s)
  closed : ∀ t ∈ tokens s, textEnds t.text = true

/-- A part of a source that closes its brackets is closed by itself, unless it begins with a number sign. -/
theorem Piece.selfContained {pos : Nat} {text : Bytes} {ts : List Token} (h : Piece pos text ts)
    (hsharp : ∀ t, ts.head? = some t → t.is "#" = false) (hnest : Nested ts) : SelfContained text := by
  obtain ⟨hsolid, hclosed⟩ := h.fresh hsharp
  have hshift : tokensFrom pos true text = (tokens text).map (Token.shift pos) := by
    rw [tokens, ← tokensFrom_shift, Nat.zero_add]
  rw [hshift] at hsolid hclosed
  refine ⟨?_, fun t ht => hclosed (t.shift pos) (List.mem_map_of_mem ht)⟩
  unfold Nested at hnest ⊢
  rwa [← hsolid, unclosed_solid, unclosed_shift] at hnest

/-- A closed text with a semicolon after its last token. -/
theorem SelfContained.semicolon {s : Bytes} (h : SelfContained s) (hlast : endsWithTrivia (tokens s) = false) :
    SelfContained (s ++ (";" : Bytes)) := by
  obtain ⟨f, happ⟩ := tokensFrom_append (x := ';'.toUInt8) [] (by decide) s 0 true h.closed
    (fun _ _ => joins_eq_false _ _ (by decide) (by decide)) fun htrivia => by
      rw [tokens] at hlast
      rw [hlast] at htrivia
      cases htrivia
  have hmark : tokensFrom (0 + s.length) f [';'.toUInt8] = [⟨.mark, ";", 0 + s.length⟩] := by
    have hlex : lexeme f ';'.toUInt8 ([] ++ []) = (.mark, 0) := by cases f <;> decide
    have htoken := tokensFrom_token (0 + s.length) f (by decide) hlex
    rw [tokensFrom_nil] at htoken
    exact htoken
  have htokens : tokens (s ++ (";" : Bytes)) = tokens s ++ [⟨.mark, ";", 0 + s.length⟩] := by
    rw [tokens, tokens, ← hmark]
    exact happ
  refine ⟨?_, fun t ht => ?_⟩
  · rw [htokens]
    exact h.nested.append (nested_of_plain fun t ht => by
      rw [List.mem_singleton.1 ht]
      exact ⟨rfl, rfl⟩)
  · rw [htokens] at ht
    rcases List.mem_append.1 ht with ht | ht
    · exact h.closed t ht
    · rw [List.mem_singleton.1 ht]
      exact (by decide : textEnds (";" : Bytes) = true)

/-- The text of a group ends with the last token of the group. -/
theorem endsWithTrivia_raw {src : Bytes} {pre ts post : List Token} {a : Token}
    (hends : ∀ t ∈ tokens src, t.isTerminated = true) (hsolid : solid (tokens src) = pre ++ ts ++ post)
    (ha : ts.head? = some a) (hsharp : a.is "#" = false) :
    endsWithTrivia (tokens (raw src.slice ts)) = false := by
  obtain ⟨hpiece, -⟩ := (piece_raw hends hsolid ha).fresh fun t ht => by
    rw [ha] at ht
    cases ht
    exact hsharp
  obtain ⟨b, hb⟩ : ∃ b, ts.getLast? = some b := by
    rw [← Option.isSome_iff_exists, List.getLast?_isSome]
    rintro rfl
    cases ha
  obtain ⟨front, rfl⟩ := List.getLast?_eq_some_iff.1 hb
  have hlen : (raw src.slice (front ++ [b])).length ≤ b.stop - a.start := by
    have hraw : raw src.slice (front ++ [b]) = src.slice a.start b.stop := by
      unfold raw
      rw [ha, hb]
    rw [hraw, Bytes.slice, List.length_take]
    exact Nat.min_le_left _ _
  rw [endsWithTrivia, Bool.eq_false_iff]
  intro htrivia
  obtain ⟨t, ht, htt⟩ := (Option.any_eq_true _ _).1 htrivia
  -- a comment after the last token of the group would end behind the text
  have hshift : tokensFrom a.start true (raw src.slice (front ++ [b]))
      = (tokens (raw src.slice (front ++ [b]))).map (Token.shift a.start) := by
    rw [tokens, ← tokensFrom_shift, Nat.zero_add]
  obtain ⟨others, hothers⟩ := List.getLast?_eq_some_iff.1 ht
  have hsorted := sorted_tokensFrom (raw src.slice (front ++ [b])) a.start true
  have hlast : t.shift a.start ∈ tokensFrom a.start true (raw src.slice (front ++ [b])) := by
    rw [hshift]
    exact List.mem_map_of_mem (List.mem_of_getLast? ht)
  have hbMem : b ∈ tokensFrom a.start true (raw src.slice (front ++ [b])) ∧ b.isTrivia = false := by
    refine mem_solid.1 ?_
    rw [hpiece]
    simp
  have hbefore : b.stop ≤ (t.shift a.start).start := by
    have hin := hbMem.1
    rw [hshift, hothers, List.map_append, List.map_singleton] at hsorted hin
    rcases List.mem_append.1 hin with hin | hin
    · exact (List.pairwise_append.1 hsorted).2.2 b hin _ (List.mem_singleton.2 rfl)
    · rw [List.mem_singleton.1 hin] at hbMem
      exact absurd ((htt : (t.shift a.start).isTrivia = true).symm.trans hbMem.2) (by decide)
  have hstop := stop_le_of_mem hlast
  have hpos := (le_start_of_mem hlast).2
  have hab := (le_start_of_mem hbMem.1).1
  have := (le_start_of_mem hbMem.1).2
  omega

/-! ## Bodies -/

/-- The tokens of the statements of a method, from those after its parameters. -/
def bodyTokens : List Token → List Token
  | [] => []
  | t :: ts =>
    if t.is Bytes.leftBrace then (splitPair Bytes.leftBrace Bytes.rightBrace (t :: ts)).1.tail.dropLast
    else if t.is "=>" then dropSemicolon ts
    else if t.is ";" then []
    else bodyTokens ts

/-- Statements that can stand on lines of their own: they close the brackets they open, as those between
braces always do, and begin with no number sign. -/
structure PlainBody (ts : List Token) : Prop where
  nested : Nested (bodyTokens ts)
  head : ∀ t ∈ (bodyTokens ts).head?, t.is "#" = false

instance (ts : List Token) : Decidable (PlainBody ts) :=
  decidable_of_iff (Nested (bodyTokens ts) ∧ ∀ t ∈ (bodyTokens ts).head?, t.is "#" = false)
    ⟨fun h => ⟨h.1, h.2⟩, fun h => ⟨h.1, h.2⟩⟩

def Body.statements : Body → Bytes
  | .expression s => s ++ (";" : Bytes)
  | b => b.text

theorem selfContained_nil : SelfContained [] := by
  have hnil : tokens [] = [] := tokensFrom_nil 0 true
  exact ⟨by rw [hnil]; exact nested_nil, by simp [hnil]⟩

theorem blockText_pair (cut : Nat → Nat → Bytes) (brace close : Token) (ts : List Token) :
    blockText cut (brace :: ts ++ [close]) = .ok (cut brace.stop close.start) := by
  cases ts with
  | nil => rfl
  | cons t ts =>
    have hlast : ((t :: ts) ++ [close]).getLast (by simp) = close := List.getLast_concat
    exact congrArg (fun t : Token => Except.ok (cut brace.stop t.start)) hlast

theorem piece_inside {src : Bytes} {pre ts post : List Token} {brace close : Token}
    (hends : ∀ t ∈ tokens src, t.isTerminated = true)
    (hsolid : solid (tokens src) = pre ++ brace :: (ts ++ close :: post)) :
    Piece brace.stop (src.slice brace.stop close.start) ts := by
  have hcut : solid (tokens src) = (pre ++ [brace]) ++ ts ++ (close :: post) := by
    rw [hsolid]
    simp
  have hmem : ∀ t ∈ pre ++ brace :: (ts ++ close :: post), t ∈ tokens src := fun t ht => by
    rw [← hsolid] at ht
    exact (mem_solid.1 ht).1
  have hpos : ∀ t ∈ pre ++ brace :: (ts ++ close :: post), t.start < t.stop := fun t ht =>
    (le_start_of_mem (hmem t ht)).2
  have hsorted := sorted_solid src
  rw [hsolid, List.pairwise_append, List.pairwise_cons, List.pairwise_append, List.pairwise_cons] at hsorted
  obtain ⟨-, ⟨hbrace, -, ⟨hclose, -⟩, hbefore⟩, hpre⟩ := hsorted
  have hbraceMem := hpos brace (by simp)
  refine piece_slice hends hcut (clean_of_mem (hmem brace (by simp))).2 (fun t ht => ?_) (fun t ht => ?_)
    (hbrace close (by simp)) (fun t ht => ?_) ⟨close, by rw [hsolid]; simp, .inr rfl⟩
  · rcases List.mem_append.1 ht with ht | ht
    · have := hpre t ht brace List.mem_cons_self
      omega
    · rw [List.mem_singleton.1 ht]
  · exact ⟨hbrace t (by simp [ht]), hbefore t ht close List.mem_cons_self⟩
  · rcases List.mem_cons.1 ht with rfl | ht
    · exact Nat.le_refl _
    · have := hclose t ht
      have := hpos close (by simp)
      omega

theorem dropSemicolon_prefix (ts : List Token) : ∃ post, ts = dropSemicolon ts ++ post := by
  unfold dropSemicolon
  split
  · exact (List.dropLast_prefix ts).imp fun _ h => h.symm
  · exact ⟨[], (List.append_nil ts).symm⟩

/-- **The statements of a method** are closed by themselves. -/
theorem selfContained_body {src : Bytes} {pre ts post : List Token} {stack : List Bytes} {body : Body}
    (hends : ∀ t ∈ tokens src, t.isTerminated = true) (hsolid : solid (tokens src) = pre ++ ts ++ post)
    (hnest : unclosed stack ts = some []) (hplain : PlainBody ts) (hbody : bodyOf src.slice ts = .ok body) :
    SelfContained body.statements := by
  induction ts generalizing pre stack with
  | nil =>
    cases hbody
    exact selfContained_nil
  | cons t ts ih =>
    obtain ⟨hnested, hhead⟩ := hplain
    rw [bodyOf] at hbody
    rw [bodyTokens] at hnested hhead
    split at hbody
    · rename_i hbrace
      rw [if_pos hbrace] at hnested hhead
      rw [unclosed_open _ _ (closer?_of_is mem_braces hbrace)] at hnest
      obtain ⟨ys, close, zs, rfl, hys, hclose, -⟩ := exists_close ts hnest (Nat.zero_le _)
      have hpair := splitPair_nested mem_braces hbrace hys hclose zs
      rw [List.cons_append] at hpair
      rw [hpair] at hbody hhead
      have hinner : (t :: ys ++ [close]).tail.dropLast = ys := by simp
      rw [hinner] at hhead
      rw [blockText_pair] at hbody
      cases hbody
      have hcut : solid (tokens src) = pre ++ t :: (ys ++ close :: (zs ++ post)) := by
        rw [hsolid]
        simp
      exact (piece_inside hends hcut).selfContained hhead hys
    · rename_i hbrace
      rw [if_neg hbrace] at hnested hhead
      split at hbody
      · rename_i harrow
        rw [if_pos harrow] at hnested hhead
        cases hbody
        obtain ⟨more, hmore⟩ := dropSemicolon_prefix ts
        have hcut : solid (tokens src) = (pre ++ [t]) ++ dropSemicolon ts ++ (more ++ post) := calc
          solid (tokens src) = (pre ++ [t]) ++ ts ++ post := by rw [hsolid]; simp
          _ = (pre ++ [t]) ++ (dropSemicolon ts ++ more) ++ post := by rw [← hmore]
          _ = (pre ++ [t]) ++ dropSemicolon ts ++ (more ++ post) := by simp only [List.append_assoc]
        cases ha : (dropSemicolon ts).head? with
        | none =>
          rw [List.head?_eq_none_iff.1 ha]
          refine selfContained_nil.semicolon ?_
          rw [tokens, tokensFrom_nil]
          rfl
        | some a =>
          exact ((piece_raw hends hcut ha).selfContained hhead hnested).semicolon
            (endsWithTrivia_raw hends hcut ha (hhead a ha))
      · rename_i harrow
        rw [if_neg harrow] at hnested hhead
        split at hbody
        · cases hbody
          exact selfContained_nil
        · rename_i hsemi
          rw [if_neg hsemi] at hnested hhead
          obtain ⟨stack', hrest⟩ := unclosed_suffix hnest (List.suffix_cons t ts)
          have hcut : solid (tokens src) = (pre ++ [t]) ++ ts ++ post := by
            rw [hsolid]
            simp
          exact ih hcut hrest ⟨hnested, hhead⟩ hbody

end Flowsmith.Source
