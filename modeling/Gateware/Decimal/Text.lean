import Gateware.Decimal.Shortest

/-!
# Decimal text

How doubles are written: with the shortest digits, positionally from `0.0001` up to `10 ^ 16` and
with an exponent elsewhere.
-/
namespace Gateware.Decimal

/-- The first digit has place `10 ^ lead`. Positional text has a digit on both sides of the
point. -/
def positional (digits : List Char) (lead : Int) : String :=
  if lead < 0 then
    "0." ++ "".pushn '0' ((-lead).toNat - 1) ++ String.ofList digits
  else
    let whole := digits.take (lead.toNat + 1)
    let rest := digits.drop (lead.toNat + 1)
    String.ofList whole ++ "".pushn '0' (lead.toNat + 1 - whole.length) ++ "."
      ++ (if rest.isEmpty then "0" else String.ofList rest)

/-- One digit before the point, which is left out when nothing follows it. -/
def scientific (digits : List Char) (lead : Int) : String :=
  let rest := digits.drop 1
  String.ofList (digits.take 1) ++ (if rest.isEmpty then "" else "." ++ String.ofList rest)
    ++ "e" ++ toString lead

/-- The text of a double. -/
def text (bits : UInt64) : String :=
  let sign := if isNegative bits then "-" else ""
  let magnitudeBits := bits.toNat % 1 <<< 63
  if magnitudeBits = 0 then sign ++ "0.0"
  else if magnitudeBits = 2047 <<< 52 then sign ++ "inf"
  else if 2047 <<< 52 < magnitudeBits then "NaN"
  else
    let (n, place) := shortest (magnitude bits)
    let digits := Nat.toDigits 10 n
    let lead := place + digits.length - 1
    sign ++ if -4 ≤ lead ∧ lead < 16 then positional digits lead else scientific digits lead

end Gateware.Decimal
