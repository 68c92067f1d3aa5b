import SymbolIndex.Json.Double
import SymbolIndex.Json.Value

/-!
# Numbers in JSON

A number is an integer of 64 bits, or else a double. A double is made from the leading digits of
the number that fit in 64 bits, rounded, and from powers of ten, rounded as well; their product or
quotient is rounded again and must be finite. Digits that do not fit count only by their place.
-/

namespace SymbolIndex.Json

def isDigit (c : Char) : Bool := 48 ≤ c.toNat ∧ c.toNat ≤ 57

def digitValue (c : Char) : Nat := c.toNat - 48

def digitsValue (ds : List Char) : Nat := ds.foldl (fun n c => n * 10 + digitValue c) 0

structure Numeral where
  negative : Bool
  whole : List Char
  fraction : List Char := []
  exponent : Option (Bool × List Char) := none
deriving DecidableEq, Inhabited

namespace Numeral

def whole? (cs : List Char) : Option (List Char × List Char) :=
  match cs.span isDigit with
  | ([], _) => none
  | (['0'], rest) => some (['0'], rest)
  | ('0' :: _, _) => none
  | (digits, rest) => some (digits, rest)

def fraction? : List Char → Option (List Char × List Char)
  | '.' :: cs =>
    match cs.span isDigit with
    | ([], _) => none
    | (digits, rest) => some (digits, rest)
  | cs => some ([], cs)

def exponent? : List Char → Option (Option (Bool × List Char))
  | [] => some none
  | c :: cs =>
    if c = 'e' ∨ c = 'E' then
      let (negative, digits) := match cs with
        | '-' :: ds => (true, ds)
        | '+' :: ds => (false, ds)
        | ds => (false, ds)
      if digits ≠ [] ∧ digits.all isDigit then some (some (negative, digits)) else none
    else none

def parse? (cs : List Char) : Option Numeral := do
  let (negative, body) := match cs with
    | '-' :: rest => (true, rest)
    | _ => (false, cs)
  let (whole, rest) ← whole? body
  let (fraction, rest) ← fraction? rest
  return { negative, whole, fraction, exponent := ← exponent? rest }

/-! ## Doubles -/

/-- Leading digits, the power of ten they are multiplied by, and whether digits were left out. -/
structure Leading where
  significand : Nat := 0
  power : Int := 0
  full : Bool := false

def Leading.pushWhole (l : Leading) (c : Char) : Leading :=
  let next := l.significand * 10 + digitValue c
  if l.full ∨ Nat.pow 2 64 ≤ next then { l with power := l.power + 1, full := true }
  else { l with significand := next }

def Leading.pushFraction (l : Leading) (c : Char) : Leading :=
  let next := l.significand * 10 + digitValue c
  if l.full ∨ Nat.pow 2 64 ≤ next then { l with full := true }
  else { l with significand := next, power := l.power - 1 }

/-- The leading digits of a number without its exponent. Those after the point are tried anew, also
when some before it did not fit. -/
def leading (n : Numeral) : Leading :=
  n.fraction.foldl Leading.pushFraction { n.whole.foldl Leading.pushWhole {} with full := false }

def maxPower : Nat := 308

def powerOfTen? (power : Nat) : Option Double := Double.ofQuotient? (Nat.pow 10 power) 1

/-- A double times a negative power of ten: divided by the greatest power as long as what remains is
greater still, and then by the rest. Each turn but the last takes off the greatest power, so `fuel`
is one more than their number. -/
def scaleDown? (fuel : Nat) (x : Double) (power : Nat) : Option Double :=
  match fuel with
  | 0 => some x
  | fuel + 1 =>
    if power ≤ maxPower then (powerOfTen? power).bind x.div?
    else if x.mantissa = 0 then some x
    else ((powerOfTen? maxPower).bind x.div?).bind (fun x => scaleDown? fuel x (power - maxPower))

def scale? (significand : Nat) (power : Int) : Option Double := do
  let x ← Double.ofQuotient? significand 1
  if 0 ≤ power then
    if power ≤ maxPower then x.mul? (← powerOfTen? power.toNat)
    else if significand = 0 then some x
    else none
  else
    let power := (-power).toNat
    scaleDown? (power / maxPower + 1) x power

def maxExponent : Nat := Nat.pow 2 31 - 1

def double? (n : Numeral) : Option Double :=
  let l := n.leading
  match n.exponent with
  | none => scale? l.significand l.power
  | some (negative, digits) =>
    let e := digitsValue digits
    if maxExponent < e then
      if l.significand ≠ 0 ∧ !negative then none else some { mantissa := 0, exponent := 0 }
    else scale? l.significand (if negative then l.power - e else l.power + e)

def document (n : Numeral) : Json :=
  let size := digitsValue n.whole
  let isWhole := n.fraction = [] ∧ n.exponent = none
  if isWhole ∧ !n.negative ∧ size < Nat.pow 2 64 then .int size
  else if isWhole ∧ n.negative ∧ 0 < size ∧ size ≤ Nat.pow 2 63 then .int (-(size : Int))
  else match n.double? with
    | some x => .real ((if n.negative then "-" else "") ++ x.text)
    | none => .unreadable

end Numeral

def number? (cs : List Char) : Option Json := (Numeral.parse? cs).map Numeral.document

end SymbolIndex.Json
