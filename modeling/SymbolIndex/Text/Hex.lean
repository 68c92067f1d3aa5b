/-!
# Bytes in hexadecimal
-/

namespace SymbolIndex.Text

def hexDigitOf (n : Nat) : Char :=
  if n < 10 then Char.ofNat (48 + n) else Char.ofNat (87 + n)

def hex (bytes : List UInt8) : String :=
  String.ofList (bytes.flatMap (fun b => [hexDigitOf (b.toNat / 16), hexDigitOf (b.toNat % 16)]))

def hexDigitValue? (c : Char) : Option Nat :=
  let n := c.toNat
  if 48 ≤ n ∧ n ≤ 57 then some (n - 48)
  else if 97 ≤ n ∧ n ≤ 102 then some (n - 87)
  else if 65 ≤ n ∧ n ≤ 70 then some (n - 55)
  else none

def unhex? : List Char → Option (List UInt8)
  | [] => some []
  | a :: b :: rest => do
    let high ← hexDigitValue? a
    let low ← hexDigitValue? b
    let bytes ← unhex? rest
    return UInt8.ofNat (high * 16 + low) :: bytes
  | [_] => none

end SymbolIndex.Text
