/-!
Hexadecimal digits, in both cases.
-/

namespace ProjectScope.Text

/-- The lower-case digit of a number below 16. -/
def hexDigit (n : Nat) : Char :=
  Char.ofNat (if n < 10 then '0'.toNat + n else 'a'.toNat + (n - 10))

/-- The upper-case digit of a number below 16. -/
def upperHexDigit (n : Nat) : Char :=
  Char.ofNat (if n < 10 then '0'.toNat + n else 'A'.toNat + (n - 10))

def hexValue? (c : Char) : Option Nat :=
  if '0' ≤ c ∧ c ≤ '9' then some (c.toNat - '0'.toNat)
  else if 'a' ≤ c ∧ c ≤ 'f' then some (c.toNat - 'a'.toNat + 10)
  else if 'A' ≤ c ∧ c ≤ 'F' then some (c.toNat - 'A'.toNat + 10)
  else none

/-- The digits of a number written with exactly `width` of them, the last one lowest. -/
def hexDigits : (width : Nat) → Nat → List Char
  | 0, _ => []
  | width + 1, n => hexDigits width (n / 16) ++ [hexDigit (n % 16)]

/-- How many digits a number needs; zero needs one. -/
def hexWidth (n : Nat) : Nat := if n < 16 then 1 else hexWidth (n / 16) + 1

/-- A number without leading zeros. -/
def hexNumber (n : Nat) : List Char := hexDigits (hexWidth n) n

end ProjectScope.Text
