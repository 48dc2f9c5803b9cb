/-!
# Two's complement integers

Bit patterns are natural numbers below a power of two; values are integers. A value of `w` bits
lies in `[0, 2^w)` when unsigned and in `[-2^(w-1), 2^(w-1))` when signed.
-/
namespace Gateware

/-- The number of binary digits of `n`, none for zero. -/
def bitLength (n : Nat) : Nat := if n = 0 then 0 else n.log2 + 1

/-- The fewest bits that hold `n`, at least one. A negative number brings its sign bit; a positive
one gets one only on request. The count is exact: a number of `2^32` bits and more is left out of
account, where a count kept in 32 bits comes out short. -/
def bitsFor (n : Int) (signBit : Bool) : Nat :=
  match n with
  | .ofNat 0 => 1
  | .ofNat m => bitLength m + signBit.toNat
  | .negSucc m => bitLength m + 1

/-- The pattern of `w` ones. -/
def mask (w : Nat) : Nat := 1 <<< w - 1

/-- The low `w` bits of the two's complement of `v`. -/
def toBits (v : Int) (w : Nat) : Nat := (v % (1 <<< w : Nat)).toNat

/-- The value that the low `w` bits of `v` denote. -/
def wrap (v : Int) (w : Nat) (signed : Bool) : Int :=
  let bits := toBits v w
  if signed && bits.testBit (w - 1) then (bits : Int) - (1 <<< w : Nat) else bits

end Gateware
