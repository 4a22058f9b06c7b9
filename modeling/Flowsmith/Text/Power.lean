/-!
# Powers

The powers that number formats are made of.

* `twoTo`, `tenTo` : powers of two and of ten.
-/

namespace Flowsmith

/-- `2 ^ n`. -/
abbrev twoTo (n : Nat) : Nat := Nat.pow 2 n

/-- `10 ^ n`. -/
abbrev tenTo (n : Nat) : Nat := Nat.pow 10 n

end Flowsmith
