import Gateware.Signal
import Mathlib.Tactic.Ring
import Mathlib.Data.Int.Bitwise
import Mathlib.Data.Int.ModEq
import Mathlib.Data.Nat.Bitwise

/-!
# Patterns and values

The low bits of a number decide the value it has in a shape, and wrapping to the shape keeps them.
-/
namespace Gateware

/-! ### Low bits -/

theorem two_pow_cast (w : Nat) : ((2 ^ w : Nat) : Int) = 2 ^ w := by norm_cast

theorem mask_eq (w : Nat) : mask w = 2 ^ w - 1 := by
  rw [mask, Nat.one_shiftLeft]

theorem toBits_eq (v : Int) (w : Nat) : toBits v w = (v % (2 ^ w : Nat)).toNat := by
  rw [toBits, Nat.one_shiftLeft]

theorem toBits_lt (v : Int) (w : Nat) : toBits v w < 2 ^ w := by
  have pos : (0 : Int) < (2 ^ w : Nat) := by exact_mod_cast Nat.two_pow_pos w
  have lt := Int.emod_lt_of_pos v pos
  have nonneg := Int.emod_nonneg v (Int.ne_of_gt pos)
  rw [toBits_eq]
  omega

theorem toBits_cast (v : Int) (w : Nat) : (toBits v w : Int) = v % (2 ^ w : Nat) := by
  have pos : (0 : Int) < (2 ^ w : Nat) := by exact_mod_cast Nat.two_pow_pos w
  rw [toBits_eq]
  exact Int.toNat_of_nonneg (Int.emod_nonneg v (Int.ne_of_gt pos))

theorem toBits_ofNat (n w : Nat) : toBits n w = n % 2 ^ w := by
  have h := toBits_cast n w
  rw [← Int.natCast_emod] at h
  exact_mod_cast h

theorem toBits_of_lt {n w : Nat} (h : n < 2 ^ w) : toBits n w = n := by
  rw [toBits_ofNat, Nat.mod_eq_of_lt h]

@[simp] theorem toBits_toBits (v : Int) (w : Nat) : toBits (toBits v w : Nat) w = toBits v w :=
  toBits_of_lt (toBits_lt v w)

/-- Numbers that differ by a multiple of the range have the same low bits. -/
theorem toBits_sub_mul (v k : Int) (w : Nat) : toBits (v - k * (2 ^ w : Nat)) w = toBits v w := by
  rw [toBits_eq, toBits_eq, Int.sub_mul_emod_self_right]

theorem toBits_mod (v : Int) {u w : Nat} (h : u ≤ w) : toBits v w % 2 ^ u = toBits v u := by
  have divides : ((2 ^ u : Nat) : Int) ∣ (2 ^ w : Nat) := by
    exact_mod_cast Nat.pow_dvd_pow 2 h
  have same : ((toBits v w % 2 ^ u : Nat) : Int) = (toBits v u : Nat) := by
    rw [Int.natCast_emod, toBits_cast, toBits_cast, Int.emod_emod_of_dvd v divides]
  exact_mod_cast same

theorem toBits_eq_iff {u v : Int} {w : Nat} : toBits u w = toBits v w ↔ u ≡ v [ZMOD 2 ^ w] := by
  rw [Int.ModEq, ← two_pow_cast, ← toBits_cast, ← toBits_cast, Int.natCast_inj]

/-- The low bits of a number are those of its two's complement without end. -/
theorem testBit_toBits (v : Int) (w i : Nat) :
    (toBits v w).testBit i = (decide (i < w) && v.testBit i) := by
  cases v with
  | ofNat n =>
    rw [Int.ofNat_eq_natCast, toBits_ofNat]
    exact Nat.testBit_mod_two_pow n w i
  | negSucc m =>
    have lt : m % 2 ^ w < 2 ^ w := Nat.mod_lt m (Nat.two_pow_pos w)
    have low : toBits (Int.negSucc m) w = 2 ^ w - (m % 2 ^ w + 1) := by
      have value := toBits_cast (Int.negSucc m) w
      rw [Int.negSucc_emod m (by exact_mod_cast Nat.two_pow_pos w), ← Int.natCast_emod] at value
      omega
    rw [low, Nat.testBit_two_pow_sub_succ lt, Nat.testBit_mod_two_pow]
    cases decide (i < w) <;> rfl

theorem testBit_mask (w i : Nat) : (mask w).testBit i = decide (i < w) := by
  rw [mask_eq, Nat.testBit_two_pow_sub_one]

theorem testBit_eq_false_of_lt {b w i : Nat} (h : b < 2 ^ w) (hi : w ≤ i) : b.testBit i = false :=
  Nat.testBit_lt_two_pow (Nat.lt_of_lt_of_le h (Nat.pow_le_pow_right (by decide) hi))

theorem testBit_top {b w : Nat} (lt : b < 2 ^ (w + 1)) : b.testBit w = decide (2 ^ w ≤ b) := by
  by_cases h : 2 ^ w ≤ b
  · rw [Nat.testBit_of_two_pow_le_and_two_pow_add_one_gt h lt, decide_eq_true h]
  · rw [Nat.testBit_lt_two_pow (Nat.not_le.mp h), decide_eq_false h]

/-! ### Wrapped values -/

theorem wrap_congr {v v' : Int} {w : Nat} (signed : Bool) (same : toBits v w = toBits v' w) :
    wrap v w signed = wrap v' w signed := by
  simp only [wrap, same]

@[simp] theorem toBits_wrap (v : Int) (w : Nat) (signed : Bool) :
    toBits (wrap v w signed) w = toBits v w := by
  unfold wrap
  dsimp only
  split
  · have shifted := toBits_sub_mul (toBits v w) 1 w
    rw [Int.one_mul, ← Nat.one_shiftLeft] at shifted
    rw [shifted, toBits_toBits]
  · exact toBits_toBits v w

namespace Shape

variable (s : Shape)

@[simp] theorem toBits_wrap (v : Int) : toBits (s.wrap v) s.width = toBits v s.width :=
  Gateware.toBits_wrap ..

theorem wrap_congr {v v' : Int} (same : toBits v s.width = toBits v' s.width) :
    s.wrap v = s.wrap v' :=
  Gateware.wrap_congr _ same

@[simp] theorem wrap_wrap (v : Int) : s.wrap (s.wrap v) = s.wrap v :=
  s.wrap_congr (s.toBits_wrap v)

theorem wrap_unsigned (w : Nat) (v : Int) : (unsigned w).wrap v = toBits v w := rfl

/-- Only a signed shape with bits has negative numbers. -/
theorem wrap_eq_toBits (v : Int) (h : ¬ (s.signed ∧ 0 < s.width)) :
    s.wrap v = toBits v s.width := by
  obtain ⟨w, signed⟩ := s
  cases signed with
  | false => rfl
  | true =>
    obtain rfl : w = 0 := by simpa using h
    have none := toBits_lt v 0
    have zero : toBits v 0 = 0 := by omega
    simp [wrap, Gateware.wrap, zero]

/-- An unsigned number stays as it is in a wider unsigned shape. -/
theorem wrap_eq_self_of_le {s t : Shape} {v : Int} (hs : s.signed = false) (ht : t.signed = false)
    (wider : s.width ≤ t.width) (wrapped : s.wrap v = v) : t.wrap v = v := by
  have number : v = toBits v s.width := by
    rw [← s.wrap_eq_toBits v (by simp [hs]), wrapped]
  have lt := Nat.lt_of_lt_of_le (toBits_lt v s.width) (Nat.pow_le_pow_right (by decide) wider)
  rw [t.wrap_eq_toBits v (by simp [ht])]
  generalize toBits v s.width = n at number lt
  rw [number, toBits_of_lt lt]

/-- The numbers of a shape are those that wrapping to it keeps. -/
theorem wrap_eq_self_iff {s : Shape} {v : Int} : s.wrap v = v ↔ s.Holds v := by
  obtain ⟨w, signed⟩ := s
  have low := toBits_cast v w
  have lt := toBits_lt v w
  cases w with
  | zero =>
    rw [(Shape.mk 0 signed).wrap_eq_toBits v (by simp), Holds, if_pos rfl]
    change (toBits v 0 : Int) = v ↔ v = 0
    omega
  | succ w =>
    have double : 2 ^ (w + 1) = 2 * 2 ^ w := by rw [Nat.pow_succ, Nat.mul_comm]
    cases signed with
    | false =>
      change (toBits v (w + 1) : Int) = v ↔ 0 ≤ v ∧ v < (1 <<< (w + 1) : Nat)
      rw [Nat.one_shiftLeft]
      exact ⟨fun h => by omega, fun h => low.trans (Int.emod_eq_of_lt h.1 h.2)⟩
    | true =>
      change Gateware.wrap v (w + 1) true = v ↔ -(1 <<< w : Nat) ≤ v ∧ v < (1 <<< w : Nat)
      rw [Gateware.wrap, Bool.true_and, Nat.add_sub_cancel, testBit_top lt, Nat.one_shiftLeft,
        Nat.one_shiftLeft]
      simp only [decide_eq_true_eq]
      constructor
      · intro h
        split at h <;> omega
      · rintro ⟨above, below⟩
        -- A negative number has the pattern of the number a whole range above it.
        by_cases negative : v < 0
        · rw [← Int.add_emod_right, Int.emod_eq_of_lt (by omega) (by omega)] at low
          rw [if_pos (by omega)]
          omega
        · rw [Int.emod_eq_of_lt (by omega) (by omega)] at low
          rw [if_neg (by omega)]
          exact low

theorem holds_unsigned {w : Nat} {v : Int} : Holds ⟨w, false⟩ v ↔ 0 ≤ v ∧ v < 2 ^ w := by
  cases w with
  | zero => simp [Holds]; omega
  | succ w => simp [Holds, Nat.one_shiftLeft]

/-- Twice the number is compared with the whole range: there is no half of it without bits. -/
theorem holds_signed {w : Nat} {v : Int} :
    Holds ⟨w, true⟩ v ↔ -2 ^ w ≤ 2 * v ∧ 2 * v < 2 ^ w := by
  cases w with
  | zero => simp [Holds]; omega
  | succ w =>
    simp only [Holds, Nat.succ_ne_zero, if_false, if_true, Nat.add_sub_cancel, Nat.one_shiftLeft,
      pow_succ]
    push_cast
    omega

theorem holds_zero (s : Shape) : s.Holds 0 := by
  obtain ⟨w, signed⟩ := s
  have pos : (0 : Int) < 2 ^ w := by exact_mod_cast Nat.two_pow_pos w
  cases signed with
  | false => exact holds_unsigned.mpr ⟨Int.le_refl 0, pos⟩
  | true => exact holds_signed.mpr ⟨by omega, pos⟩

theorem wrap_unsigned_of_lt {w n : Nat} (h : n < 2 ^ w) : (unsigned w).wrap n = n := by
  rw [wrap_unsigned, toBits_of_lt h]

end Shape

@[simp] theorem Signal.wrap_resetValue (s : Signal) : s.shape.wrap s.resetValue = s.resetValue :=
  s.shape.wrap_wrap s.reset

/-! ### Widths -/

theorem bitLength_le_iff {n w : Nat} : bitLength n ≤ w ↔ n < 2 ^ w := by
  unfold bitLength
  split
  next zero => simp [zero]
  next nonzero => exact Nat.log2_lt nonzero

/-- A width holds a number if and only if it has the bits that the number takes. -/
theorem bitsFor_le_iff {v : Int} {signed : Bool} (sign : v < 0 → signed = true) {w : Nat} :
    bitsFor v signed ≤ w ↔ 0 < w ∧ Shape.Holds ⟨w, signed⟩ v := by
  cases v with
  | ofNat n =>
    cases n with
    | zero => exact (and_iff_left (Shape.holds_zero _)).symm
    | succ n =>
      rw [Int.ofNat_eq_natCast]
      cases signed with
      | false =>
        change bitLength (n + 1) ≤ w ↔ _
        rw [bitLength_le_iff, Shape.holds_unsigned, ← two_pow_cast]
        cases w with
        | zero => simp
        | succ w => omega
      | true =>
        change bitLength (n + 1) + 1 ≤ w ↔ _
        rw [Shape.holds_signed]
        cases w with
        | zero => simp
        | succ w =>
          rw [Nat.add_le_add_iff_right, bitLength_le_iff, pow_succ, ← two_pow_cast]
          omega
  | negSucc m =>
    -- A negative number takes the bits of the one as far above zero as it lies below minus one.
    cases sign (Int.negSucc_lt_zero m)
    change bitLength m + 1 ≤ w ↔ _
    rw [Shape.holds_signed]
    cases w with
    | zero => simp
    | succ w =>
      rw [Nat.add_le_add_iff_right, bitLength_le_iff, pow_succ, ← two_pow_cast]
      omega

/-- Every number up to `n` fits the bits that `n` takes. -/
theorem lt_two_pow_bitsFor {k n : Nat} (h : k ≤ n) : k < 2 ^ bitsFor n false := by
  have holds : Shape.Holds ⟨bitsFor n false, false⟩ n :=
    ((bitsFor_le_iff (by omega)).mp (Nat.le_refl _)).2
  have lt := (Shape.holds_unsigned.mp holds).2
  rw [← two_pow_cast] at lt
  omega

/-- Only the sign of a positive number takes a bit that has to be asked for. -/
theorem bitsFor_sign (v : Int) : bitsFor v (decide (v < 0)) = bitsFor v false := by
  cases v with
  | ofNat n => rw [Int.ofNat_eq_natCast, decide_eq_false (Int.not_lt.mpr (Int.natCast_nonneg n))]
  | negSucc m => rfl

/-- A width holds a number, signed if it is negative, if and only if it has at least that of the
number's own shape. -/
theorem Shape.width_ofValue_le_iff {v : Int} {w : Nat} :
    (ofValue v).width ≤ w ↔ 0 < w ∧ Holds ⟨w, decide (v < 0)⟩ v := by
  change bitsFor v false ≤ w ↔ _
  rw [← bitsFor_sign, bitsFor_le_iff decide_eq_true]

/-- Every number fits its own shape. -/
theorem Shape.wrap_ofValue (v : Int) : (ofValue v).wrap v = v :=
  wrap_eq_self_iff.mpr (width_ofValue_le_iff.mp (Nat.le_refl _)).2

end Gateware
