import Flowsmith.Text.Bytes

/-!
# UTF-8

`Utf8.decode` reads the code point that a byte string begins with. Bytes that begin no well-formed
sequence count one by one as the replacement character, so every non-empty text has a first code
point of positive size (`Utf8.decode_size_pos`).
-/

namespace Flowsmith.Utf8

/-- U+FFFD, which stands for bytes that are no code point. -/
def replacement : Nat := 0xFFFD

def isTail (b : UInt8) : Bool := 0x80 ≤ b && b ≤ 0xBF

/-- The six payload bits of a continuing byte. -/
def payload (b : UInt8) : Nat := b.toNat % 0x40

/-- The code point of a well-formed sequence of two bytes. -/
def two? (a b : UInt8) : Option Nat :=
  if 0xC2 ≤ a && a ≤ 0xDF && isTail b then some (a.toNat % 0x20 * 0x40 + payload b) else none

/-- The code point of a well-formed sequence of three bytes: no overlong form, no surrogate. -/
def three? (a b c : UInt8) : Option Nat :=
  if 0xE0 ≤ a && a ≤ 0xEF && isTail b && isTail c
      && !(a == 0xE0 && b < 0xA0) && !(a == 0xED && 0x9F < b) then
    some ((a.toNat % 0x10 * 0x40 + payload b) * 0x40 + payload c)
  else none

/-- The code point of a well-formed sequence of four bytes: no overlong form, none above
U+10FFFF. -/
def four? (a b c d : UInt8) : Option Nat :=
  if 0xF0 ≤ a && a ≤ 0xF4 && isTail b && isTail c && isTail d
      && !(a == 0xF0 && b < 0x90) && !(a == 0xF4 && 0x8F < b) then
    some (((a.toNat % 0x08 * 0x40 + payload b) * 0x40 + payload c) * 0x40 + payload d)
  else none

/-- The code point a text begins with and its size, when it begins with a well-formed sequence. -/
def decode? : Bytes → Option (Nat × Nat)
  | [] => none
  | a :: s =>
    if a < 0x80 then some (a.toNat, 1)
    else match s with
      | [] => none
      | b :: s =>
        match two? a b with
        | some n => some (n, 2)
        | none => match s with
          | [] => none
          | c :: s =>
            match three? a b c with
            | some n => some (n, 3)
            | none => match s with
              | [] => none
              | d :: _ => (four? a b c d).map (·, 4)

/-- The first code point and its size; a byte that begins no sequence is the replacement
character. -/
def decode (s : Bytes) : Nat × Nat := (decode? s).getD (replacement, 1)

theorem decode?_size_pos {s : Bytes} {p : Nat × Nat} (h : decode? s = some p) : 0 < p.2 := by
  unfold decode? at h
  repeat' split at h
  all_goals
    rcases p with ⟨n, k⟩
    simp at h
    try omega

theorem decode_size_pos (s : Bytes) : 0 < (decode s).2 := by
  unfold decode
  cases h : decode? s with
  | none => decide
  | some p => exact decode?_size_pos h

/-- The bytes of a code point; what is none is written as the replacement character. -/
def encode (n : Nat) : Bytes :=
  if n < 0x80 then [n.toUInt8]
  else if n < 0x800 then [(0xC0 + n / 0x40).toUInt8, (0x80 + n % 0x40).toUInt8]
  else if n < 0x10000 ∧ ¬ (0xD800 ≤ n ∧ n ≤ 0xDFFF) then
    [(0xE0 + n / 0x1000).toUInt8, (0x80 + n / 0x40 % 0x40).toUInt8, (0x80 + n % 0x40).toUInt8]
  else if 0x10000 ≤ n ∧ n ≤ 0x10FFFF then
    [(0xF0 + n / 0x40000).toUInt8, (0x80 + n / 0x1000 % 0x40).toUInt8,
     (0x80 + n / 0x40 % 0x40).toUInt8, (0x80 + n % 0x40).toUInt8]
  else [0xEF, 0xBF, 0xBD]

/-- The code points of a text with the bytes they were read from. -/
def runes (s : Bytes) : List (Nat × Bytes) :=
  match s with
  | [] => []
  | c :: rest =>
    let k := (decode (c :: rest)).2
    ((decode (c :: rest)).1, (c :: rest).take k) :: runes (rest.drop (k - 1))
termination_by s.length

def count (s : Bytes) : Nat := (runes s).length

/-- Whether every byte belongs to a well-formed sequence. -/
def isValid (s : Bytes) : Bool :=
  match s with
  | [] => true
  | c :: rest =>
    match decode? (c :: rest) with
    | some (_, k) => isValid (rest.drop (k - 1))
    | none => false
termination_by s.length

end Flowsmith.Utf8
