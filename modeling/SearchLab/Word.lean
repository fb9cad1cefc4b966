/-!
# Words of 64 bits

Counts, ids and the integers among data are kept within a word of 64 bits, with or without a sign.
-/

namespace SearchLab.Word

/-- How many values a word has. -/
def size : Nat := Nat.pow 2 64

/-- The least number that is too large for a word with a sign. -/
def half : Nat := Nat.pow 2 63

/-- What is left of an integer in a word with a sign. -/
def wrap (n : Int) : Int := n.bmod size

/-- Whether an integer fits into a word with a sign. -/
def fits (n : Int) : Bool := -(half : Int) ≤ n && n < (half : Int)

theorem size_eq : size = 2 * half := rfl

/-- A natural number fits into a word with a sign when it is below half of the word's values. -/
theorem fits_natCast (n : Nat) : fits n = decide (n < half) := by
  unfold fits
  generalize half = h
  simp only [Int.ofNat_lt, Bool.and_eq_right_iff_imp, decide_eq_true_eq]
  omega

end SearchLab.Word
