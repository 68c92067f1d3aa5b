/-!
# Doubles

Doubles that are not negative, as exact numbers: a whole number times a power of two. A quotient is
rounded to the nearest double, and to the even one of two that are equally near.
-/

namespace SymbolIndex.Json

structure Double where
  mantissa : Nat
  exponent : Int
deriving DecidableEq, Inhabited

namespace Double

def roundedQuotient (num den : Nat) : Nat :=
  let kept := num / den
  let twice := 2 * (num % den)
  if den < twice ∨ (twice = den ∧ kept % 2 = 1) then kept + 1 else kept

def scaled (num den : Nat) (power : Int) : Nat × Nat :=
  (num * Nat.pow 2 (-power).toNat, den * Nat.pow 2 power.toNat)

def minExponent : Int := -1074

def exponentOf (num den : Nat) : Int :=
  let low : Int := (num.log2 : Int) - den.log2 - 53
  let (n, d) := scaled num den low
  max minExponent (if n / d < Nat.pow 2 53 then low else low + 1)

def ofQuotient? (num den : Nat) : Option Double :=
  if num = 0 then some { mantissa := 0, exponent := 0 }
  else
    let exponent := exponentOf num den
    let (n, d) := scaled num den exponent
    let mantissa := roundedQuotient n d
    if Nat.pow 2 1024 ≤ mantissa * Nat.pow 2 exponent.toNat then none
    else some { mantissa, exponent }

def fraction (x : Double) : Nat × Nat :=
  (x.mantissa * Nat.pow 2 x.exponent.toNat, Nat.pow 2 (-x.exponent).toNat)

def mul? (x y : Double) : Option Double :=
  let (a, b) := x.fraction
  let (c, d) := y.fraction
  ofQuotient? (a * c) (b * d)

def div? (x y : Double) : Option Double :=
  let (a, b) := x.fraction
  let (c, d) := y.fraction
  ofQuotient? (a * d) (b * c)

def text (x : Double) : String :=
  let places := (-x.exponent).toNat
  let digits := Nat.toDigits 10 (x.mantissa * Nat.pow 2 x.exponent.toNat * Nat.pow 5 places)
  let padded := List.replicate (places + 1 - digits.length) '0' ++ digits
  let whole := padded.take (padded.length - places)
  let rest := padded.drop (padded.length - places)
  String.ofList (whole ++ '.' :: (if rest = [] then ['0'] else rest))

end Double

end SymbolIndex.Json
