/-!
# Shortest decimals

The fewest decimal digits that read back as a given double, and of those the nearest to it, the
greater one of two equally near. All arithmetic is exact.
-/
namespace Gateware.Decimal

/-- A positive double: `mantissa · 2 ^ exponent`. At a power of two the next smaller double is only
half as far away as the next greater one. -/
structure Binary where
  mantissa : Nat
  exponent : Int
  atPower : Bool
deriving Repr

/-- Whether the sign bit is set. -/
def isNegative (bits : UInt64) : Bool := bits.toNat.testBit 63

/-- The magnitude of a finite double other than zero. -/
def magnitude (bits : UInt64) : Binary :=
  let fraction : Nat := bits.toNat % 1 <<< 52
  let biased : Nat := bits.toNat >>> 52 % 2048
  if biased = 0 then ⟨fraction, -1074, false⟩
  else ⟨1 <<< 52 + fraction, Int.ofNat biased - 1075, fraction = 0 && 1 < biased⟩

/-- Whether `a · 10 ^ p ≤ b · 2 ^ q`, or `<` if strict. -/
def atMost (strict : Bool) (a : Nat) (p : Int) (b : Nat) (q : Int) : Bool :=
  let l := a * Nat.pow 10 p.toNat <<< (-q).toNat
  let r := b <<< q.toNat * Nat.pow 10 (-p).toNat
  if strict then l < r else l ≤ r

/-- Whether `a · 10 ^ p` reads back as the double: it lies between the midpoints to the neighbours,
which themselves go to the even mantissa. -/
def readsBack (x : Binary) (a : Nat) (p : Int) : Bool :=
  let q := x.exponent - 2
  let low := 4 * x.mantissa - (if x.atPower then 1 else 2)
  let high := 4 * x.mantissa + 2
  let odd := x.mantissa % 2 = 1
  !(atMost (!odd) a p low q) && atMost odd a p high q

/-- `⌊mantissa · 2 ^ exponent / 10 ^ p⌋`. -/
def quotient (x : Binary) (p : Int) : Nat :=
  x.mantissa <<< x.exponent.toNat * Nat.pow 10 (-p).toNat /
    Nat.pow 10 p.toNat <<< (-x.exponent).toNat

/-- Whether the double is at least as near to `(a + 1) · 10 ^ p` as to `a · 10 ^ p`. -/
def nearAbove (x : Binary) (a : Nat) (p : Int) : Bool :=
  atMost false (2 * a + 1) p (2 * x.mantissa) x.exponent

/-- The multiple of `10 ^ p` next to the double that reads back as it. Of two it is the nearer one,
in the middle the greater one. -/
def candidate? (x : Binary) (p : Int) : Option Nat :=
  let a := quotient x p
  let below := readsBack x a p && a ≠ 0
  let above := readsBack x (a + 1) p
  if below && above then some (if nearAbove x a p then a + 1 else a)
  else if below then some a
  else if above then some (a + 1)
  else none

/-- The place of the first decimal digit: `10 ^ k ≤ x < 10 ^ (k + 1)`. -/
def leading (x : Binary) : Int :=
  let up := (List.range 310).countP fun (k : Nat) => quotient x (k + 1) ≠ 0
  let down := (List.range 324).countP fun (k : Nat) => quotient x (-k) = 0
  up - down

/-- The digits of a number without the zeros at its end, and how many those are. -/
def trimZeros (n : Nat) : Nat × Nat :=
  if n ≠ 0 ∧ n % 10 = 0 then
    let (digits, zeros) := trimZeros (n / 10)
    (digits, zeros + 1)
  else (n, 0)

/-- The shortest decimal `digits · 10 ^ place`, its last digit not zero. Seventeen digits always
read back. -/
def shortest (x : Binary) : Nat × Int :=
  let k := leading x
  let places := (List.range 17).map fun (n : Nat) => k - n
  match places.findSome? fun p => (candidate? x p).map (·, p) with
  | some (a, p) =>
    let (digits, zeros) := trimZeros a
    (digits, p + zeros)
  | none => (x.mantissa, 0)

end Gateware.Decimal
