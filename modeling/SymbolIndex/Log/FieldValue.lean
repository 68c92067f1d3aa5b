import SymbolIndex.Log.Pattern.Reader
import SymbolIndex.Log.Pattern.Support

/-!
# Values of fields

The value that a log filter asks of a field is a number or else a pattern.
-/

namespace SymbolIndex.Log

def isPattern (cs : List Char) : Bool := (Pattern.parse? cs).any Pattern.isSupported

def isDecimal (cs : List Char) : Bool :=
  let (whole, rest) := cs.span Char.isDigit
  let (fraction, rest) := match rest with
    | '.' :: rest => rest.span Char.isDigit
    | rest => ([], rest)
  let exponent := match rest with
    | [] => true
    | e :: '+' :: ds | e :: '-' :: ds => (e = 'e' ∨ e = 'E') ∧ ds ≠ [] ∧ ds.all Char.isDigit
    | e :: ds => (e = 'e' ∨ e = 'E') ∧ ds ≠ [] ∧ ds.all Char.isDigit
  (whole ≠ [] ∨ fraction ≠ []) ∧ exponent

def isSignedNumber : List Char → Bool
  | '+' :: cs =>
    isDecimal cs || ["inf", "infinity", "nan"].contains (String.ofList cs).toLower
  | _ => false

def isFieldValue (cs : List Char) : Bool := isPattern cs || isSignedNumber cs

end SymbolIndex.Log
