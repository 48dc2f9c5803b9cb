import Gateware.Proofs.Bits

/-!
# Least widths

A shape stands for a range of integers. Wrapping picks the one number of the range that has the
given low bits, and the shapes of a number and of an interval are as narrow as any that hold it.

## Main results

`twos_complement_exact`: what wrapping gives and which shapes numbers and intervals get, each stated
so that nothing else meets it.

## Proof strategy

`bitsFor_le_iff` says which widths hold a number. Shapes of intervals follow from their two ends,
since a shape that holds these holds all that lies between.
-/
namespace Gateware

/-! ### Wrapping -/

/-- A number is what another one wraps to if and only if it is of the shape and has the same low
bits. -/
theorem wrap_eq_iff {u v : Int} {w : Nat} {signed : Bool} :
    wrap v w signed = u ↔ u ≡ v [ZMOD 2 ^ w] ∧ Shape.Holds ⟨w, signed⟩ u := by
  rw [← toBits_eq_iff, ← Shape.wrap_eq_self_iff]
  constructor
  · rintro rfl
    exact ⟨toBits_wrap v w signed, Shape.wrap_wrap ⟨w, signed⟩ v⟩
  · rintro ⟨low, kept⟩
    exact (wrap_congr signed low.symm).trans kept

namespace Shape

/-! ### Narrowest shapes -/

/-- Of the shapes with at least one bit and the asked sign that hold all numbers of a kind, this one
has the fewest bits. -/
structure Narrowest (s : Shape) (negative : Prop) (kind : Int → Prop) : Prop where
  signed : s.signed = true ↔ negative
  pos : 0 < s.width
  holds : ∀ v, kind v → s.Holds v
  least : ∀ t : Shape, (t.signed = true ↔ negative) → 0 < t.width → (∀ v, kind v → t.Holds v) →
    s.width ≤ t.width

theorem Narrowest.unique {s t : Shape} {negative : Prop} {kind : Int → Prop}
    (hs : s.Narrowest negative kind) (ht : t.Narrowest negative kind) : s = t := by
  have width : s.width = t.width :=
    Nat.le_antisymm (hs.least t ht.signed ht.pos ht.holds) (ht.least s hs.signed hs.pos hs.holds)
  have signed : s.signed = t.signed := Bool.eq_iff_iff.mpr (hs.signed.trans ht.signed.symm)
  obtain ⟨_, _⟩ := s
  obtain ⟨_, _⟩ := t
  exact (mk.injEq ..).mpr ⟨width, signed⟩

/-- A shape is the narrowest one if its width and all greater ones hold the numbers, and only
these. -/
theorem narrowest_of_le_iff {s : Shape} {negative : Prop} {kind : Int → Prop}
    (signed : s.signed = true ↔ negative)
    (widths : ∀ w, s.width ≤ w ↔ 0 < w ∧ ∀ v, kind v → Holds ⟨w, s.signed⟩ v) :
    s.Narrowest negative kind := by
  obtain ⟨pos, holds⟩ := (widths s.width).mp (Nat.le_refl _)
  refine ⟨signed, pos, holds, fun t sign some all => (widths t.width).mpr ⟨some, fun v hv => ?_⟩⟩
  have same : s.signed = t.signed := Bool.eq_iff_iff.mpr (signed.trans sign.symm)
  rw [same]
  exact all v hv

theorem ofValue_narrowest (v : Int) : (ofValue v).Narrowest (v < 0) (· = v) := by
  refine narrowest_of_le_iff decide_eq_true_iff fun w => ?_
  rw [width_ofValue_le_iff, forall_eq]
  rfl

/-- A shape holds what lies between two numbers that it holds. -/
theorem Holds.between {s : Shape} {lo v last : Int} (low : s.Holds lo) (high : s.Holds last)
    (above : lo ≤ v) (below : v ≤ last) : s.Holds v := by
  obtain ⟨w, signed⟩ := s
  cases signed with
  | false => rw [holds_unsigned] at *; omega
  | true => rw [holds_signed] at *; omega

theorem ofRange_narrowest (lo hi : Int) :
    (ofRange lo hi).Narrowest (lo < 0) (fun v => lo ≤ v ∧ v < hi ∨ hi ≤ lo ∧ v = lo) := by
  refine narrowest_of_le_iff decide_eq_true_iff fun w => ?_
  -- The last number is that of the interval, or the first one if there is none.
  generalize ends : (if lo < hi then hi - 1 else lo) = last
  have width : (ofRange lo hi).width =
      max (bitsFor lo (decide (lo < 0))) (bitsFor last (decide (lo < 0))) := by
    rw [ofRange, ends]
  have order : lo ≤ last := by grind
  have negative : last < 0 → decide (lo < 0) = true := fun h => decide_eq_true (by omega)
  rw [width, Nat.max_le, bitsFor_le_iff decide_eq_true, bitsFor_le_iff negative]
  constructor
  · rintro ⟨⟨pos, low⟩, -, high⟩
    exact ⟨pos, fun v hv => low.between high (by grind) (by grind)⟩
  · rintro ⟨pos, all⟩
    exact ⟨⟨pos, all lo (by grind)⟩, pos, all last (by grind)⟩

end Shape

/-- Wrapping gives the one number of the shape that has the same low bits. The shape of a number is
the narrowest one that holds it, and the shape of an interval the narrowest one that holds all of
it, or its lower end if it is empty; they are signed for the sake of a negative number only. -/
theorem twos_complement_exact :
    (∀ (v : Int) (w : Nat) (signed : Bool) (u : Int),
      wrap v w signed = u ↔ u ≡ v [ZMOD 2 ^ w] ∧ Shape.Holds ⟨w, signed⟩ u) ∧
    (∀ (v : Int) (s : Shape), Shape.ofValue v = s ↔ s.Narrowest (v < 0) (· = v)) ∧
    ∀ (lo hi : Int) (s : Shape), Shape.ofRange lo hi = s ↔
      s.Narrowest (lo < 0) (fun v => lo ≤ v ∧ v < hi ∨ hi ≤ lo ∧ v = lo) := by
  refine ⟨fun v w signed u => wrap_eq_iff, fun v s => ⟨?_, ?_⟩, fun lo hi s => ⟨?_, ?_⟩⟩
  · rintro rfl
    exact Shape.ofValue_narrowest v
  · exact (Shape.ofValue_narrowest v).unique
  · rintro rfl
    exact Shape.ofRange_narrowest lo hi
  · exact (Shape.ofRange_narrowest lo hi).unique

end Gateware
