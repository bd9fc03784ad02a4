/-!
Written numbers and the doubles they stand for. The digits are gathered into one whole number below
two to the 64th; digits beyond that count only by their place. The whole number, as a double, is
then scaled by a power of ten: a number too large for a double has no value, one too small is zero.
-/

namespace ProjectScope.Json

structure Numeral where
  negative : Bool := false
  /-- The digits before the point. -/
  whole : List Nat := []
  /-- The digits after the point. -/
  fraction : List Nat := []
  exponentNegative : Bool := false
  exponent : List Nat := []

namespace Numeral

/-- Extends a whole number by digits as long as it stays below two to the 64th; gives the digits
left over. -/
def gather (n : Nat) : List Nat → Nat × List Nat
  | [] => (n, [])
  | d :: ds => if n * 10 + d < 2 ^ 64 then gather (n * 10 + d) ds else (n, d :: ds)

def ofDigits (ds : List Nat) : Nat := ds.foldl (fun n d => n * 10 + d) 0

def powerOfTen (e : Nat) : Float := Float.ofScientific 1 false e

/-- The largest power of ten that is a double. -/
def largestPower : Nat := 308

/-- A whole number times a power of ten; `none` if no double is that large. -/
def scale (n : Nat) : (exponent : Int) → Option Float
  | .ofNat e =>
    if n = 0 then some 0
    else if largestPower < e then none
    else
      let x := Float.ofNat n * powerOfTen e
      if x.isInf then none else some x
  | .negSucc e =>
    let e := e + 1
    if e ≤ largestPower then some (Float.ofNat n / powerOfTen e)
    else if e ≤ 2 * largestPower then
      some (Float.ofNat n / powerOfTen largestPower / powerOfTen (e - largestPower))
    else some 0

/-- The double that a written number stands for, if one is large enough. -/
def value? (n : Numeral) : Option Float :=
  let (wholePart, wholeLeft) := gather 0 n.whole
  let (digits, fractionLeft) := gather wholePart n.fraction
  let written : Int := ofDigits n.exponent
  let exponent := (wholeLeft.length : Int) - ((n.fraction.length - fractionLeft.length : Nat) : Int)
    + (if n.exponentNegative then -written else written)
  (scale digits exponent).map fun x => if n.negative then -x else x

end Numeral

end ProjectScope.Json
