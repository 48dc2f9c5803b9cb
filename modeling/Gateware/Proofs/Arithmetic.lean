import Gateware.Proofs.Dependence
import Mathlib.Tactic.Linarith

/-!
# Exact arithmetic

The shape of an arithmetic expression has room for every result its operands can give, so wrapping
to it loses nothing. Three results do not fit: a difference of unsigned numbers below zero, the
product of two signed minima and the negated signed minimum.

## Main results

`arithmetic_exact`: sums, differences, products, negations and shifts have their exact values,
apart from those three, whose values it gives as well.

## Proof strategy

The range of a shape is taken without a case for width zero (`holds_unsigned`, `holds_signed`).
From there every operation has one lemma on ranges (`Holds.add`, `Holds.mul`, …), and
`eval_binary_of_holds` carries it over to expressions whose width was not cut off.
-/
namespace Gateware

namespace Shape

/-! ### Ranges -/

/-- The least number of a signed shape with bits. It is the one whose negative does not fit. -/
def AtMinimum (s : Shape) (v : Int) : Prop :=
  s.signed = true ∧ 0 < s.width ∧ v = -(1 <<< (s.width - 1) : Nat)

instance (s : Shape) (v : Int) : Decidable (s.AtMinimum v) := by
  unfold AtMinimum; infer_instance

theorem atMinimum_iff {s : Shape} {v : Int} :
    s.AtMinimum v ↔ s.signed = true ∧ 2 * v = -2 ^ s.width := by
  obtain ⟨w, signed⟩ := s
  cases w with
  | zero => simp [AtMinimum]; omega
  | succ w =>
    simp only [AtMinimum, Nat.add_sub_cancel, Nat.one_shiftLeft, pow_succ, Nat.zero_lt_succ,
      true_and]
    push_cast
    refine and_congr_right fun _ => ?_
    omega

namespace Holds

variable {v w w' : Nat} {signed : Bool} {x y : Int}

theorem mono (h : Holds ⟨w, signed⟩ x) (wider : w ≤ w') : Holds ⟨w', signed⟩ x := by
  have range : (2 : Int) ^ w ≤ 2 ^ w' := by exact_mod_cast Nat.pow_le_pow_right (by decide) wider
  cases signed with
  | false => rw [holds_unsigned] at *; omega
  | true => rw [holds_signed] at *; omega

/-- One more bit keeps an unsigned number from turning negative. -/
theorem signed_of_unsigned (h : Holds ⟨w, false⟩ x) : Holds ⟨w + 1, true⟩ x := by
  rw [holds_unsigned] at h
  rw [holds_signed, pow_succ]
  omega

theorem add (hx : Holds ⟨w, signed⟩ x) (hy : Holds ⟨w, signed⟩ y) :
    Holds ⟨w + 1, signed⟩ (x + y) := by
  cases signed with
  | false => rw [holds_unsigned] at *; rw [pow_succ]; omega
  | true => rw [holds_signed] at *; rw [pow_succ]; omega

theorem sub (hx : Holds ⟨w, true⟩ x) (hy : Holds ⟨w, true⟩ y) :
    Holds ⟨w + 1, true⟩ (x - y) := by
  rw [holds_signed] at *
  rw [pow_succ]
  omega

theorem neg (hx : Holds ⟨w, true⟩ x) (above : ¬ AtMinimum ⟨w, true⟩ x) :
    Holds ⟨w, true⟩ (-x) := by
  rw [atMinimum_iff] at above
  rw [holds_signed] at *
  simp only [true_and] at above
  omega

theorem mul_unsigned (hx : Holds ⟨v, false⟩ x) (hy : Holds ⟨w, false⟩ y) :
    Holds ⟨v + w, false⟩ (x * y) := by
  rw [holds_unsigned] at *
  rw [pow_add]
  exact ⟨mul_nonneg hx.1 hy.1, mul_lt_mul'' hx.2 hy.2 hx.1 hy.1⟩

theorem mul_mixed (hx : Holds ⟨v, true⟩ x) (hy : Holds ⟨w, false⟩ y) :
    Holds ⟨v + w, true⟩ (x * y) := by
  rw [holds_signed] at *
  rw [holds_unsigned] at hy
  rw [pow_add]
  have pos : (0 : Int) < 2 ^ v := by positivity
  -- Both ends of the signed range are scaled by a number below `2 ^ w`.
  constructor
  · nlinarith
  · nlinarith

/-- A product of signed numbers reaches the upper end of its range at the two minima alone. -/
theorem mul_signed (hx : Holds ⟨v, true⟩ x) (hy : Holds ⟨w, true⟩ y)
    (above : ¬ (AtMinimum ⟨v, true⟩ x ∧ AtMinimum ⟨w, true⟩ y)) :
    -2 ^ (v + w) ≤ 4 * (x * y) ∧ 4 * (x * y) < 2 ^ (v + w) := by
  simp only [atMinimum_iff, true_and] at above
  rw [holds_signed] at hx hy
  rw [pow_add]
  generalize (2 : Int) ^ v = a at *
  generalize (2 : Int) ^ w = b at *
  constructor
  · nlinarith
  · -- `a * b - 4 * (x * y)` is half the sum of these two, which vanish at the minima only.
    have left : 0 ≤ (a - 2 * x) * (b + 2 * y) := mul_nonneg (by omega) (by omega)
    have right : 0 ≤ (a + 2 * x) * (b - 2 * y) := mul_nonneg (by omega) (by omega)
    by_cases least : 2 * x = -a
    · have : 0 < (a - 2 * x) * (b + 2 * y) := mul_pos (by omega) (by omega)
      nlinarith
    · have : 0 < (a + 2 * x) * (b - 2 * y) := mul_pos (by omega) (by omega)
      nlinarith

theorem shiftLeft (hx : Holds ⟨w, signed⟩ x) (n : Nat) : Holds ⟨w + n, signed⟩ (x * 2 ^ n) := by
  have pos : (0 : Int) < 2 ^ n := by positivity
  cases signed with
  | false =>
    rw [holds_unsigned, pow_add] at *
    exact ⟨mul_nonneg hx.1 pos.le, (mul_lt_mul_iff_of_pos_right pos).mpr hx.2⟩
  | true =>
    rw [holds_signed, pow_add] at *
    constructor
    · nlinarith
    · nlinarith

theorem shiftRight (hx : Holds ⟨w, signed⟩ x) (n : Nat) : Holds ⟨w, signed⟩ (x / 2 ^ n) := by
  have pos : (0 : Int) < 2 ^ n := by positivity
  -- Division moves a number toward zero and never across it.
  have up : 0 ≤ x → 0 ≤ x / 2 ^ n ∧ x / 2 ^ n ≤ x := fun nonneg =>
    ⟨Int.ediv_nonneg nonneg pos.le, Int.ediv_le_self _ nonneg⟩
  have down : x < 0 → x ≤ x / 2 ^ n ∧ x / 2 ^ n < 0 := fun negative =>
    ⟨Int.le_ediv_of_mul_le pos (by nlinarith), Int.ediv_neg_of_neg_of_pos negative pos⟩
  cases signed with
  | false => rw [holds_unsigned] at *; omega
  | true => rw [holds_signed] at *; omega

theorem toNat_lt {s : Shape} (hx : s.Holds x) (nonneg : 0 ≤ x) :
    x.toNat < 2 ^ (s.width - s.signed.toNat) := by
  obtain ⟨w, signed⟩ := s
  have number : (x.toNat : Int) = x := Int.toNat_of_nonneg nonneg
  cases signed with
  | false =>
    rw [holds_unsigned, ← number] at hx
    exact_mod_cast hx.2
  | true =>
    rw [holds_signed] at hx
    cases w with
    | zero => simp at hx ⊢; omega
    | succ w =>
      have half : (x.toNat : Int) < 2 ^ w := by
        rw [pow_succ] at hx
        omega
      exact_mod_cast half

theorem bounds {s : Shape} (hx : s.Holds x) : -2 ^ s.width ≤ x ∧ x < 2 ^ s.width := by
  obtain ⟨w, signed⟩ := s
  have pos : (0 : Int) < 2 ^ w := by positivity
  cases signed with
  | false => rw [holds_unsigned] at hx; dsimp only; omega
  | true => rw [holds_signed] at hx; dsimp only; omega

/-- Beside a signed operand an unsigned one takes a bit to stay as it is. -/
theorem aligned {s : Shape} (hx : s.Holds x) (t : Shape) :
    Holds ⟨s.width + (!s.signed && t.signed).toNat, s.signed || t.signed⟩ x := by
  obtain ⟨w, signed⟩ := s
  obtain ⟨_, other⟩ := t
  cases signed with
  | true => exact hx
  | false =>
    cases other with
    | false => exact hx
    | true => exact hx.signed_of_unsigned

end Holds

/-- Half a range is one too high for a signed shape and comes back as the minimum. -/
theorem wrap_half {s : Shape} {v : Int} (signed : s.signed = true) (half : 2 * v = 2 ^ s.width) :
    s.wrap v = -v := by
  obtain ⟨w, _⟩ := s
  obtain rfl := signed
  dsimp only at half
  have pos : (0 : Int) < 2 ^ w := by positivity
  have lower : v - 1 * (2 ^ w : Nat) = -v := by push_cast; omega
  -- The number and the one a range below have the same bits.
  have same := toBits_sub_mul v 1 w
  rw [lower] at same
  rw [← wrap_congr _ same, wrap_eq_self_iff, holds_signed]
  omega

end Shape

/-! ### Room for the result -/

/-- The width that an operation asks for, however large. -/
def BinaryOp.fullWidth (op : BinaryOp) (a b : Shape) (amount : Option Literal) : Nat :=
  let wa := a.width + (!a.signed && b.signed).toNat
  let wb := b.width + (!b.signed && a.signed).toNat
  match op with
  | .add | .sub => max wa wb + 1
  | .mul => if a.signed && b.signed then max (a.width + b.width - 1) 1 else a.width + b.width
  | .and | .or | .xor => max wa wb
  | .shl => a.width + amount.elim (2 ^ (b.width - b.signed.toNat) - 1) (·.value.toNat)
  | .shr => a.width + amount.elim (if b.signed then 2 ^ (b.width - 1) else 0) fun _ => 0
  | .eq | .ne | .lt | .le | .gt | .ge => 1

def UnaryOp.fullWidth (op : UnaryOp) (a : Shape) : Nat :=
  match op with
  | .invert => a.width
  | .neg => a.width + (!a.signed).toNat

/-- The width that an expression's operation asks for was not cut off at the largest one. -/
def Expr.Unsaturated : Expr → Prop
  | .unary op a => (Expr.unary op a).width = op.fullWidth a.shape
  | .binary op a b => (Expr.binary op a b).width = op.fullWidth a.shape b.shape b.literal?
  | .replicate a count => (Expr.replicate a count).width = a.width * count
  | _ => True

theorem powWidth_eq {n : Nat} (room : 2 ^ n ≤ maxWidth) : powWidth n = 2 ^ n := by
  have few : n < 32 := by
    by_contra many
    have large : 2 ^ 32 ≤ 2 ^ n := Nat.pow_le_pow_right (by decide) (by omega)
    simp only [maxWidth] at room
    omega
  rw [powWidth, if_pos few, Nat.one_shiftLeft]

theorem saturate_of_le {w : Nat} (room : w ≤ maxWidth) : saturate w = w := Nat.min_eq_left room

theorem Shape.max_aligned {a b : Shape} (room : max (a.width + (!a.signed && b.signed).toNat)
      (b.width + (!b.signed && a.signed).toNat) ≤ maxWidth) :
    max (a.aligned b).1 (a.aligned b).2 = max (a.width + (!a.signed && b.signed).toNat)
      (b.width + (!b.signed && a.signed).toNat) := by
  obtain ⟨v, sa⟩ := a
  obtain ⟨w, sb⟩ := b
  cases sa <;> cases sb <;> simp [aligned, saturate] at room ⊢ <;> omega

/-- A width below the largest one is not cut off. -/
theorem BinaryOp.width_shape_of_lt {op : BinaryOp} {a b : Shape} {amount : Option Literal}
    (room : op.fullWidth a b amount < maxWidth) :
    (op.shape a b amount).width = op.fullWidth a b amount := by
  cases op with
  | add | sub =>
    simp only [fullWidth, shape] at room ⊢
    rw [Shape.max_aligned (by omega), saturate_of_le (by omega)]
  | and | or | xor =>
    simp only [fullWidth, shape] at room ⊢
    exact Shape.max_aligned (by omega)
  | mul =>
    -- The sum of the widths is cut off before the second sign bit is dropped.
    simp only [fullWidth, shape] at room ⊢
    cases sa : a.signed <;> cases sb : b.signed <;> simp [sa, sb, saturate] at room ⊢ <;> omega
  | shl =>
    simp only [fullWidth, shape, Shape.growth] at room ⊢
    cases amount with
    | some c =>
      simp only [Option.elim] at room ⊢
      rw [saturate_of_le (w := c.value.toNat) (by omega), saturate_of_le (by omega)]
    | none =>
      -- The power is cut off on its own, before the width is.
      simp only [Option.elim] at room ⊢
      cases sb : b.signed <;> simp only [sb, Bool.toNat_false, Bool.toNat_true, Nat.sub_zero,
        Bool.false_eq_true, if_false, if_true] at room ⊢
      · rw [powWidth_eq (by omega), saturate_of_le (by omega)]
      · rw [powWidth_eq (by omega), saturate_of_le (by omega)]
  | shr =>
    simp only [fullWidth, shape, Shape.slack] at room ⊢
    cases amount with
    | some c => exact saturate_of_le room.le
    | none =>
      simp only [Option.elim] at room ⊢
      cases sb : b.signed <;> simp only [sb, Bool.false_eq_true, if_false, if_true] at room ⊢
      · exact saturate_of_le room.le
      · rw [powWidth_eq (by omega), saturate_of_le room.le]
  | eq | ne | lt | le | gt | ge => rfl

theorem Expr.unsaturated_of_lt {op : BinaryOp} {a b : Expr}
    (room : op.fullWidth a.shape b.shape b.literal? < maxWidth) : (binary op a b).Unsaturated :=
  BinaryOp.width_shape_of_lt room

namespace Shape.Holds

variable {a b : Shape} {x y : Int}

theorem add_fits (hx : a.Holds x) (hy : b.Holds y) (amount : Option Literal) :
    Holds ⟨BinaryOp.fullWidth .add a b amount, a.signed || b.signed⟩ (x + y) := by
  have right := hy.aligned a
  rw [Bool.or_comm] at right
  exact ((hx.aligned b).mono (le_max_left ..)).add (right.mono (le_max_right ..))

theorem sub_fits (hx : a.Holds x) (hy : b.Holds y) (signed : (a.signed || b.signed) = true)
    (amount : Option Literal) :
    Holds ⟨BinaryOp.fullWidth .sub a b amount, a.signed || b.signed⟩ (x - y) := by
  have left := hx.aligned b
  have right := hy.aligned a
  rw [Bool.or_comm, signed] at right
  rw [signed] at left ⊢
  exact (left.mono (le_max_left ..)).sub (right.mono (le_max_right ..))

theorem mul_fits (hx : a.Holds x) (hy : b.Holds y) (above : ¬ (a.AtMinimum x ∧ b.AtMinimum y))
    (amount : Option Literal) :
    Holds ⟨BinaryOp.fullWidth .mul a b amount, a.signed || b.signed⟩ (x * y) := by
  obtain ⟨v, sa⟩ := a
  obtain ⟨w, sb⟩ := b
  cases sa with
  | false =>
    cases sb with
    | false => exact hx.mul_unsigned hy
    | true =>
      have swapped := hy.mul_mixed hx
      rw [mul_comm, Nat.add_comm] at swapped
      exact swapped
  | true =>
    cases sb with
    | false => exact hx.mul_mixed hy
    | true =>
      have range := hx.mul_signed hy above
      change Holds ⟨max (v + w - 1) 1, true⟩ (x * y)
      generalize v + w = sum at range ⊢
      cases sum with
      | zero =>
        have none : x * y = 0 := by omega
        rw [none]
        decide
      | succ k =>
        apply mono _ (le_max_left ..)
        rw [pow_succ] at range
        rw [Nat.add_sub_cancel, holds_signed]
        omega

theorem neg_fits (hx : a.Holds x) (above : ¬ a.AtMinimum x) :
    Holds ⟨UnaryOp.fullWidth .neg a, true⟩ (-x) := by
  obtain ⟨w, signed⟩ := a
  cases signed with
  | true => exact hx.neg above
  | false =>
    change Holds ⟨w + 1, true⟩ (-x)
    rw [holds_unsigned] at hx
    rw [holds_signed, pow_succ]
    omega

theorem mul_minima (hx : a.AtMinimum x) (hy : b.AtMinimum y) (amount : Option Literal) :
    2 * (x * y) = 2 ^ BinaryOp.fullWidth .mul a b amount := by
  obtain ⟨v, sa⟩ := a
  obtain ⟨w, sb⟩ := b
  obtain ⟨rfl, some, rfl⟩ := hx
  obtain ⟨rfl, some', rfl⟩ := hy
  obtain ⟨v, rfl⟩ : ∃ k, v = k + 1 := ⟨v - 1, by dsimp only at some; omega⟩
  obtain ⟨w, rfl⟩ : ∃ k, w = k + 1 := ⟨w - 1, by dsimp only at some'; omega⟩
  have width : BinaryOp.fullWidth .mul ⟨v + 1, true⟩ ⟨w + 1, true⟩ amount = v + w + 1 := by
    simp only [BinaryOp.fullWidth, Bool.and_self, if_true]
    omega
  rw [width]
  simp only [Nat.add_sub_cancel, Nat.one_shiftLeft]
  push_cast
  ring

theorem shl_fits (hx : a.Holds x) (hy : b.Holds y) (nonneg : 0 ≤ y) {amount : Option Literal}
    (named : ∀ c, amount = some c → y = c.value) :
    y ≤ BinaryOp.fullWidth .shl a b amount ∧
      Holds ⟨BinaryOp.fullWidth .shl a b amount, a.signed⟩ (x * 2 ^ y.toNat) := by
  -- The growth is at least the amount.
  have enough : a.width + y.toNat ≤ BinaryOp.fullWidth .shl a b amount := by
    apply Nat.add_le_add_left
    cases amount with
    | some c =>
      rw [named c rfl]
      exact Nat.le_refl _
    | none => exact Nat.le_sub_one_of_lt (hy.toNat_lt nonneg)
  exact ⟨by omega, (hx.shiftLeft _).mono enough⟩

theorem shr_fits (hx : a.Holds x) (n : Nat) (amount : Option Literal) :
    Holds ⟨BinaryOp.fullWidth .shr a b amount, a.signed⟩ (x / 2 ^ n) :=
  (hx.shiftRight n).mono (Nat.le_add_right ..)

end Shape.Holds

/-- Past the operand's width a right shift leaves the sign, which is all that division leaves. -/
theorem shiftRight_eq_div {s : Shape} {x y : Int} (hx : s.Holds x) (nonneg : 0 ≤ y) :
    shiftRight x y s.width = x / 2 ^ y.toNat := by
  unfold shiftRight
  split
  · rw [Int.shiftRight_eq_div_pow]
    push_cast
    rfl
  · have wide : (2 : Int) ^ s.width ≤ 2 ^ y.toNat := by
      exact_mod_cast Nat.pow_le_pow_right (by decide) (by omega)
    have range := hx.bounds
    -- The divisor is past both ends of the range.
    split
    · rw [Int.ediv_eq_neg_one_of_neg_of_le] <;> omega
    · rw [Int.ediv_eq_zero_of_lt] <;> omega

theorem shiftLeft_eq_mul {x y : Int} {w : Nat} (nonneg : 0 ≤ y) (within : y ≤ w) :
    shiftLeft x y w = x * 2 ^ y.toNat := by
  rw [shiftLeft, if_pos ⟨nonneg, within⟩, Nat.one_shiftLeft]
  push_cast
  rfl

/-! ### Values of operations -/

namespace Expr

variable {ρ : Valuation} {a b : Expr} {x y r : Int}

theorem eval_binary_of_holds {op : BinaryOp} (ha : a.eval ρ = .ok x) (hb : b.eval ρ = .ok y)
    (exact : op.apply x y a.width (binary op a b).width = r)
    (fits : (binary op a b).shape.Holds r) : (binary op a b).eval ρ = .ok r := by
  rw [← Shape.wrap_eq_self_iff] at fits
  rw [eval, ha, hb, ← fits, ← exact]
  rfl

theorem shape_of_unsaturated {op : BinaryOp} {signed : Bool} (u : (binary op a b).Unsaturated)
    (h : (binary op a b).shape.signed = signed) :
    (binary op a b).shape = ⟨op.fullWidth a.shape b.shape b.literal?, signed⟩ := by
  rw [← show _ = op.fullWidth _ _ _ from u, ← h]
  rfl

@[simp] theorem signed_mul :
    (binary .mul a b).shape.signed = (a.shape.signed || b.shape.signed) := by
  simp only [shape, BinaryOp.shape]
  cases a.shape.signed <;> cases b.shape.signed <;> rfl

theorem eval_add (ha : a.eval ρ = .ok x) (hb : b.eval ρ = .ok y) (hx : a.shape.Holds x)
    (hy : b.shape.Holds y) (u : (binary .add a b).Unsaturated) :
    (binary .add a b).eval ρ = .ok (x + y) := by
  apply eval_binary_of_holds ha hb rfl
  rw [shape_of_unsaturated u rfl]
  exact hx.add_fits hy _

/-- Without a sign the difference stays in range by going around. -/
theorem eval_sub (ha : a.eval ρ = .ok x) (hb : b.eval ρ = .ok y) (hx : a.shape.Holds x)
    (hy : b.shape.Holds y) (u : (binary .sub a b).Unsaturated) :
    (binary .sub a b).eval ρ = .ok (if a.shape.signed || b.shape.signed then x - y
      else (x - y) % 2 ^ (binary .sub a b).width) := by
  split
  next signed =>
    apply eval_binary_of_holds ha hb rfl
    rw [shape_of_unsaturated u rfl]
    exact hx.sub_fits hy signed _
  next unsigned =>
    have wrapped : (binary .sub a b).shape.wrap (x - y) =
        (x - y) % 2 ^ (binary .sub a b).width := by
      rw [Shape.wrap_eq_toBits _ _ fun h => unsigned h.1, toBits_cast]
      push_cast
      rfl
    rw [eval, ha, hb, ← wrapped]
    rfl

theorem eval_mul (ha : a.eval ρ = .ok x) (hb : b.eval ρ = .ok y) (hx : a.shape.Holds x)
    (hy : b.shape.Holds y) (u : (binary .mul a b).Unsaturated) :
    (binary .mul a b).eval ρ = .ok (if a.shape.AtMinimum x ∧ b.shape.AtMinimum y then -(x * y)
      else x * y) := by
  split
  next least =>
    have wrapped : (binary .mul a b).shape.wrap (x * y) = -(x * y) := by
      apply Shape.wrap_half
      · rw [signed_mul, least.1.1]
        rfl
      · rw [shape_of_unsaturated u rfl]
        exact Shape.Holds.mul_minima least.1 least.2 b.literal?
    rw [eval, ha, hb, ← wrapped]
    rfl
  next above =>
    apply eval_binary_of_holds ha hb rfl
    rw [shape_of_unsaturated u signed_mul]
    exact hx.mul_fits hy above _

theorem eval_neg (ha : a.eval ρ = .ok x) (hx : a.shape.Holds x) (u : (unary .neg a).Unsaturated) :
    (unary .neg a).eval ρ = .ok (if a.shape.AtMinimum x then x else -x) := by
  have wrapped : (unary .neg a).shape.wrap (-x) = if a.shape.AtMinimum x then x else -x := by
    split
    next least =>
      -- A signed operand lends its shape to the result, which has no room for this negative.
      have kept : (unary .neg a).shape = a.shape := by
        rw [shape, UnaryOp.shape, if_pos least.1]
      rw [kept, Shape.wrap_half least.1, Int.neg_neg]
      have twice := (Shape.atMinimum_iff.mp least).2
      omega
    next above =>
      rw [Shape.wrap_eq_self_iff]
      have full : (unary .neg a).shape = ⟨UnaryOp.fullWidth .neg a.shape, true⟩ := by
        rw [← show _ = UnaryOp.fullWidth _ _ from u]
        simp only [width, shape, UnaryOp.shape]
        split
        next signed => rw [← signed]
        next => rfl
      rw [full]
      exact hx.neg_fits above
  rw [eval, ha, ← wrapped]
  rfl

theorem eval_shl (ha : a.eval ρ = .ok x) (hb : b.eval ρ = .ok y) (hx : a.shape.Holds x)
    (hy : b.shape.Holds y) (nonneg : 0 ≤ y) (named : ∀ c, b.literal? = some c → y = c.value)
    (u : (binary .shl a b).Unsaturated) :
    (binary .shl a b).eval ρ = .ok (x * 2 ^ y.toNat) := by
  have fits := hx.shl_fits hy nonneg named
  apply eval_binary_of_holds ha hb
  · apply shiftLeft_eq_mul nonneg
    rw [show _ = BinaryOp.fullWidth .shl _ _ _ from u]
    exact fits.1
  · rw [shape_of_unsaturated u rfl]
    exact fits.2

theorem eval_shr (ha : a.eval ρ = .ok x) (hb : b.eval ρ = .ok y) (hx : a.shape.Holds x)
    (nonneg : 0 ≤ y) (u : (binary .shr a b).Unsaturated) :
    (binary .shr a b).eval ρ = .ok (x / 2 ^ y.toNat) := by
  apply eval_binary_of_holds ha hb
  · exact shiftRight_eq_div hx nonneg
  · rw [shape_of_unsaturated u rfl]
    exact hx.shr_fits _ _

/-- An operand has a value, which is in its shape. -/
theorem eval_in_range (resolved : a.refs = []) (inRange : ∀ s ∈ a.mentions, s.shape.Holds (ρ s)) :
    ∃ x, a.eval ρ = .ok x ∧ a.shape.Holds x := by
  obtain ⟨x, value⟩ := eval_ok ρ a resolved
  exact ⟨x, value, Shape.wrap_eq_self_iff.mp (eval_wrapped inRange value)⟩

theorem eval_literal? {c : Literal} (named : b.literal? = some c) (fits : c.shape.Holds c.value)
    (value : b.eval ρ = .ok y) : y = c.value := by
  cases b with
  | literal d =>
    cases named
    rw [eval, Shape.wrap_eq_self_iff.mpr fits] at value
    cases value
    rfl
  | _ => cases named

/-- Where the width of an arithmetic expression is not cut off, its value in a state with all
signals in range is the exact one: for sums; for differences with a sign, and otherwise up to a
multiple of the range; for products and negatives of anything but the minima; for shifts by any
amount that is not negative, to the left as products and to the right as quotients rounded down. -/
theorem arithmetic_exact (ρ : Valuation) (a b : Expr) (resolved : a.refs = [] ∧ b.refs = [])
    (inRange : ∀ s ∈ a.mentions ++ b.mentions, s.shape.Holds (ρ s))
    (literal : ∀ c, b.literal? = some c → c.shape.Holds c.value) :
    ∃ x y, a.eval ρ = .ok x ∧ b.eval ρ = .ok y ∧
      ((binary .add a b).Unsaturated → (binary .add a b).eval ρ = .ok (x + y)) ∧
      ((binary .sub a b).Unsaturated → (binary .sub a b).eval ρ =
        .ok (if a.shape.signed || b.shape.signed then x - y
          else (x - y) % 2 ^ (binary .sub a b).width)) ∧
      ((binary .mul a b).Unsaturated → (binary .mul a b).eval ρ =
        .ok (if a.shape.AtMinimum x ∧ b.shape.AtMinimum y then -(x * y) else x * y)) ∧
      ((unary .neg a).Unsaturated → (unary .neg a).eval ρ =
        .ok (if a.shape.AtMinimum x then x else -x)) ∧
      (0 ≤ y → (binary .shl a b).Unsaturated →
        (binary .shl a b).eval ρ = .ok (x * 2 ^ y.toNat)) ∧
      (0 ≤ y → (binary .shr a b).Unsaturated →
        (binary .shr a b).eval ρ = .ok (x / 2 ^ y.toNat)) := by
  obtain ⟨x, ha, hx⟩ := eval_in_range resolved.1 fun s hs => inRange s (List.mem_append_left _ hs)
  obtain ⟨y, hb, hy⟩ := eval_in_range resolved.2 fun s hs => inRange s (List.mem_append_right _ hs)
  refine ⟨x, y, ha, hb, eval_add ha hb hx hy, eval_sub ha hb hx hy, eval_mul ha hb hx hy,
    eval_neg ha hx, ?_, eval_shr ha hb hx⟩
  intro nonneg
  exact eval_shl ha hb hx hy nonneg fun c named => eval_literal? named (literal c named) hb

namespace Sample

def level : Signal := ⟨⟨0⟩, "level", .signedOf 4, 0, false⟩

def places : Signal := ⟨⟨1⟩, "places", .signedOf 3, 0, false⟩

/-- The level at its minimum, and as many places as fit. -/
def lowest (s : Signal) : Int := if s = level then -8 else 3

end Sample

open Sample

/-- At the minimum only the negative is not exact. -/
theorem lowest_exact :
    (∀ s ∈ (signal level).mentions ++ (signal places).mentions, s.shape.Holds (lowest s)) ∧
    (binary .add (signal level) (signal places)).eval lowest = .ok (-5) ∧
    (binary .sub (signal level) (signal places)).eval lowest = .ok (-11) ∧
    (binary .mul (signal level) (signal places)).eval lowest = .ok (-24) ∧
    (unary .neg (signal level)).eval lowest = .ok (-8) ∧
    (binary .shl (signal level) (signal places)).eval lowest = .ok (-64) ∧
    (binary .shr (signal level) (signal places)).eval lowest = .ok (-1) := by
  have inRange : ∀ s ∈ (signal level).mentions ++ (signal places).mentions,
      s.shape.Holds (lowest s) := by decide
  obtain ⟨x, y, hx, hy, sum, difference, product, negative, left, right⟩ :=
    arithmetic_exact lowest (signal level) (signal places) ⟨rfl, rfl⟩ inRange
      (fun c named => by cases named)
  obtain rfl : -8 = x := Except.ok.inj hx
  obtain rfl : 3 = y := Except.ok.inj hy
  have room {op : BinaryOp}
      (few : op.fullWidth (.signedOf 4) (.signedOf 3) none < maxWidth) :
      (binary op (signal level) (signal places)).Unsaturated := unsaturated_of_lt few
  exact ⟨inRange, sum (room (by decide)), difference (room (by decide)),
    product (room (by decide)), negative rfl, left (by decide) (room (by decide)),
    right (by decide) (room (by decide))⟩

end Expr

end Gateware
