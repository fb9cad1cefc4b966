/-!
# Hexadecimal digits

A character may be given by its number in hexadecimal digits; a number that no character has gives none.
-/

namespace SearchLab.Text

/-- A hexadecimal digit in lower case. -/
def hexDigit (n : Nat) : Char :=
  if n < 10 then Char.ofNat ('0'.toNat + n) else Char.ofNat ('a'.toNat + (n - 10))

/-- The value of a hexadecimal digit in either case. -/
def hexValue? (c : Char) : Option Nat :=
  if '0' ≤ c && c ≤ '9' then some (c.toNat - '0'.toNat)
  else if 'a' ≤ c && c ≤ 'f' then some (c.toNat - 'a'.toNat + 10)
  else if 'A' ≤ c && c ≤ 'F' then some (c.toNat - 'A'.toNat + 10)
  else none

/-- The character with a number in hexadecimal digits, of which there is at least one. -/
def charOfHex? (digits : List Char) : Option Char :=
  if digits.isEmpty then none
  else
    match digits.mapM hexValue? with
    | none => none
    | some values =>
      let n := values.foldl (fun n d => 16 * n + d) 0
      if n.isValidChar then some (Char.ofNat n) else none

/-- A digit is read back as its value. -/
theorem hexValue?_hexDigit {n : Nat} (h : n < 16) : hexValue? (hexDigit n) = some n := by
  have all : ∀ m ∈ List.range 16, hexValue? (hexDigit m) = some m := by decide
  exact all n (List.mem_range.2 h)

end SearchLab.Text
