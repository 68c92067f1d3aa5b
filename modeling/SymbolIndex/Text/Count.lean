/-!
# Decimal counts

How a count is written on a command line or in the environment.
-/

namespace SymbolIndex.Text

/-- A decimal number of 64 bits, perhaps with a plus sign. -/
def count? (s : String) : Option UInt64 :=
  let digits := match s.toList with
    | '+' :: rest => rest
    | cs => cs
  if digits = [] ∨ digits.any (fun c => c.toNat < 48 ∨ 57 < c.toNat) then none
  else
    let n := digits.foldl (fun n c => n * 10 + (c.toNat - 48)) 0
    if n < UInt64.size then some (UInt64.ofNat n) else none

end SymbolIndex.Text
