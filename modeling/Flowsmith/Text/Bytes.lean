/-!
# Byte strings

Sources, definitions, project files and paths are byte strings: every offset, column and length of
the library counts bytes, and nothing is assumed about their encoding.

* `Bytes.ofString` : the UTF-8 bytes of a literal (a coercion, so literals are written as strings);
* `Bytes.cut?` : the parts before and after the first occurrence of a text;
* `Bytes.splitOn`, `Bytes.joinWith` : splitting at a byte and its inverse;
* `Bytes.replaceAll`, `Bytes.slice`, `Bytes.natural`, `Bytes.integer` : replacement, cutting,
  decimals.
-/

namespace Flowsmith

abbrev Bytes := List UInt8

namespace Bytes

def ofString (s : String) : Bytes := s.toList.flatMap String.utf8EncodeChar

instance : Coe String Bytes := ⟨ofString⟩

/-- The bytes of a text of given characters, without reading the text. A literal is such a text, so an
evaluation that is to be short begins with this equation. -/
theorem ofString_ofList (cs : List Char) :
    ofString (String.ofList cs) = cs.flatMap String.utf8EncodeChar := by
  rw [ofString, String.toList_ofList]

abbrev newline : UInt8 := 0x0A

abbrev leftBrace : Bytes := "\x7b"

abbrev rightBrace : Bytes := "\x7d"

/-- `start` counts from zero and `stop` is exclusive. -/
def slice (s : Bytes) (start stop : Nat) : Bytes := (s.drop start).take (stop - start)

/-- `n` spaces. -/
def spaces (n : Nat) : Bytes := List.replicate n 0x20

def natural (n : Nat) : Bytes := ofString (toString n)

/-- The decimal digits of an integer, with a sign when it is negative. -/
def integer (n : Int) : Bytes := ofString (toString n)

/-! ## Searching -/

/-- The offset of the first occurrence of `needle`. -/
def indexOf? (needle : Bytes) : Bytes → Option Nat
  | [] => if needle.isEmpty then some 0 else none
  | c :: s => if needle.isPrefixOf (c :: s) then some 0 else (indexOf? needle s).map (· + 1)

/-- Whether `needle` occurs. -/
def includes (s needle : Bytes) : Bool := (indexOf? needle s).isSome

/-- The text before and the text after the first occurrence of `needle`. -/
def cut? (s needle : Bytes) : Option (Bytes × Bytes) :=
  (indexOf? needle s).map fun i => (s.take i, s.drop (i + needle.length))

/-- The offset just after the last occurrence of the byte `c`, zero when there is none. -/
def afterLast (s : Bytes) (c : UInt8) : Nat :=
  s.length - (s.reverse.takeWhile (· != c)).length

/-- The text without `pfx` when it begins so. -/
def dropStart? (s pfx : Bytes) : Option Bytes :=
  if pfx.isPrefixOf s then some (s.drop pfx.length) else none

/-- Whether the text ends in `sfx`. -/
def endsIn (s sfx : Bytes) : Bool := sfx.isSuffixOf s

/-- The text without `sfx` when it ends so. -/
def dropEnd? (s sfx : Bytes) : Option Bytes :=
  if sfx.isSuffixOf s then some (s.take (s.length - sfx.length)) else none

/-! ## Splitting, joining, replacing -/

/-- The parts between the bytes `c`; one part when there is none. -/
def splitOn (c : UInt8) : Bytes → List Bytes
  | [] => [[]]
  | b :: s =>
    if b = c then [] :: splitOn c s
    else match splitOn c s with
      | [] => [[b]]
      | part :: parts => (b :: part) :: parts

/-- The lines of a text, without their line feeds. -/
def lines (s : Bytes) : List Bytes := splitOn newline s

/-- The parts with `sep` between them. -/
def joinWith (sep : Bytes) : List Bytes → Bytes
  | [] => []
  | [s] => s
  | s :: t :: rest => s ++ sep ++ joinWith sep (t :: rest)

/-- Every occurrence of the byte `c` replaced. -/
def replaceByte (s : Bytes) (c : UInt8) (new : Bytes) : Bytes :=
  s.flatMap fun b => if b = c then new else [b]

/-- Every occurrence of the non-empty text `old`, from the left and without overlaps, replaced. -/
def replaceAll (s old new : Bytes) : Bytes :=
  match s with
  | [] => []
  | c :: rest =>
    if old.isPrefixOf (c :: rest) && !old.isEmpty then
      new ++ replaceAll (rest.drop (old.length - 1)) old new
    else c :: replaceAll rest old new
termination_by s.length

/-- Byte order: the order of the first difference, a proper beginning before the whole. -/
def lt : Bytes → Bytes → Bool
  | _, [] => false
  | [], _ :: _ => true
  | a :: s, b :: t => a < b || (a == b && lt s t)

/-- The non-strict byte order. -/
def le (s t : Bytes) : Bool := !lt t s

/-- The texts in byte order; equal ones keep their places. -/
def sort (xs : List Bytes) : List Bytes := xs.mergeSort le

/-! ## Letters of the ASCII range -/

/-- An ASCII letter in lower case; every other byte is kept. -/
def lowerByte (c : UInt8) : UInt8 := if 0x41 ≤ c && c ≤ 0x5A then c + 0x20 else c

/-- An ASCII letter in upper case; every other byte is kept. -/
def upperByte (c : UInt8) : UInt8 := if 0x61 ≤ c && c ≤ 0x7A then c - 0x20 else c

def isDigitByte (c : UInt8) : Bool := 0x30 ≤ c && c ≤ 0x39

def isLetterByte (c : UInt8) : Bool := (0x41 ≤ c && c ≤ 0x5A) || (0x61 ≤ c && c ≤ 0x7A)

/-- A property holds of every byte when it holds of those with each two hexadecimal digits. -/
theorem forall_byte (p : UInt8 → Bool)
    (h : ((List.range 16).all fun m => (List.range 16).all fun n => p (UInt8.ofNat (16 * m + n))) = true)
    (c : UInt8) : p c = true := by
  have hlt := c.toNat_lt
  have hc := List.all_eq_true.1 (List.all_eq_true.1 h (c.toNat / 16) (List.mem_range.2 (by omega)))
    (c.toNat % 16) (List.mem_range.2 (Nat.mod_lt _ (by decide)))
  rwa [Nat.div_add_mod, UInt8.ofNat_toNat] at hc

theorem splitOn_ne_nil (c : UInt8) (s : Bytes) : splitOn c s ≠ [] := by
  cases s with
  | nil => simp [splitOn]
  | cons b s =>
    unfold splitOn
    split
    · simp
    · split <;> simp

/-- Joining the parts of a split gives the text back. -/
theorem joinWith_splitOn (c : UInt8) (s : Bytes) : joinWith [c] (splitOn c s) = s := by
  induction s with
  | nil => rfl
  | cons b s ih =>
    cases hs : splitOn c s with
    | nil => exact absurd hs (splitOn_ne_nil c s)
    | cons part parts =>
      rw [hs] at ih
      by_cases h : b = c
      · simp [splitOn, h, hs, joinWith, ih]
      · cases parts <;> simp_all [splitOn, joinWith]

end Bytes

end Flowsmith
