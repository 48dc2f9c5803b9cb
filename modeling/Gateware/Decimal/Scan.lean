/-!
# Reading decimals

The double that a decimal text stands for, up to its last bits: the digits that fit a word are taken
as an integer, and a power of ten scales it, with a rounding at each step.
-/
namespace Gateware.Decimal

/-- Append digits to a number while it fits a word; also gives the number of digits left over. -/
def appendDigits (n : Nat) : List Char → Nat × Nat
  | [] => (n, 0)
  | c :: cs =>
    let m := 10 * n + (c.toNat - '0'.toNat)
    if m < 1 <<< 64 then appendDigits m cs else (n, cs.length + 1)

/-- The double next to a power of ten. -/
def powerOfTen (k : Nat) : Float := .ofScientific 1 false k

/-- Scale by a power of ten; one that is too small for a double is applied in at most `steps`
steps. -/
def scale (x : Float) (exponent : Int) : (steps : Nat) → Float
  | 0 => x
  | steps + 1 =>
    if exponent < -308 then scale (x / powerOfTen 308) (exponent + 308) steps
    else if exponent < 0 then x / powerOfTen exponent.natAbs
    else x * powerOfTen exponent.toNat

/-- The part before the first of some characters, and the part after it. -/
def cut (marks : List Char) (cs : List Char) : List Char × List Char :=
  let (front, rest) := cs.span (· ∉ marks)
  (front, rest.drop 1)

/-- The number in an exponent, which may have a sign. -/
def exponentOf : List Char → Int
  | '-' :: cs => -(appendDigits 0 cs).1
  | '+' :: cs => (appendDigits 0 cs).1
  | cs => (appendDigits 0 cs).1

/-- The double that a text stands for, in its standard encoding. A text has a sign or none, digits,
a fraction or none and an exponent or none. -/
def ofText (text : String) : UInt64 :=
  let cs := text.toList
  let (front, exponent) := cut ['e', 'E'] (if cs.head? = some '-' then cs.drop 1 else cs)
  let (whole, fraction) := cut ['.'] front
  let (n, surplus) := appendDigits 0 whole
  let (n, unused) := appendDigits n fraction
  let shift : Int := exponentOf exponent + surplus - (fraction.length - unused : Nat)
  let x := scale n.toUInt64.toFloat shift 4
  (if cs.head? = some '-' then -x else x).toBits

end Gateware.Decimal
