import Gateware.Bits

/-!
# Shapes

The width and signedness of a value. Widths saturate at the largest one that can be written down.
-/
namespace Gateware

/-- The largest width; widths that would pass it stay there. -/
def maxWidth : Nat := 0xffffffff

/-- Cut a width off at the largest one. -/
def saturate (w : Nat) : Nat := min w maxWidth

/-- The width and signedness of a value. -/
structure Shape where
  width : Nat
  signed : Bool
deriving DecidableEq, Repr, Inhabited

namespace Shape

def unsigned (w : Nat) : Shape := ⟨w, false⟩

def signedOf (w : Nat) : Shape := ⟨w, true⟩

/-- The narrowest shape that holds `v`, signed only for a negative number. -/
def ofValue (v : Int) : Shape := ⟨bitsFor v false, decide (v < 0)⟩

/-- The narrowest shape that holds every integer from `lo` up to but not including `hi`, or `lo`
alone when there is none. -/
def ofRange (lo hi : Int) : Shape :=
  let last := if lo < hi then hi - 1 else lo
  let signed := decide (lo < 0)
  ⟨max (bitsFor lo signed) (bitsFor last signed), signed⟩

/-- The value that the low bits of `v` denote in this shape. -/
def wrap (s : Shape) (v : Int) : Int := Gateware.wrap v s.width s.signed

/-- The integers of this shape: `0` alone without bits, otherwise those two's complement gives. -/
def Holds (s : Shape) (v : Int) : Prop :=
  if s.width = 0 then v = 0
  else if s.signed then -(1 <<< (s.width - 1) : Nat) ≤ v ∧ v < (1 <<< (s.width - 1) : Nat)
  else 0 ≤ v ∧ v < (1 <<< s.width : Nat)

instance (s : Shape) (v : Int) : Decidable (s.Holds v) := by
  unfold Holds; infer_instance

/-- For instance `signed(8)`. -/
def text (s : Shape) : String :=
  (if s.signed then "signed" else "unsigned") ++ s!"({s.width})"

end Shape

end Gateware
