import Gateware.Proofs.Bits
import Gateware.Proofs.Dependence
import Gateware.Stmt.Fold

/-!
# Bits of expressions

Cutting, joining, extending and splicing expressions does to their patterns what shifts and masks do
to numbers. Everything is stated through `Expr.HasBits`, the width of an expression together with
the pattern of its value.

## Main results

`simplified_keep_bits`: a simplified slice has the bits of the value that it is taken from, and an
expression that is fitted to a width has the value of the original up to a multiple of the range.
-/
namespace Gateware

/-! ### Fields of patterns -/

theorem testBit_field (b start stop i : Nat) :
    (field b start stop).testBit i = (decide (i < stop - start) && b.testBit (start + i)) := by
  simp [field, testBit_mask, Nat.testBit_shiftRight, Bool.and_comm]

theorem field_eq_mod (b start stop : Nat) :
    field b start stop = (b >>> start) % 2 ^ (stop - start) := by
  rw [field, mask_eq, Nat.and_two_pow_sub_one_eq_mod]

theorem field_lt (b start stop : Nat) : field b start stop < 2 ^ (stop - start) := by
  rw [field_eq_mod]
  exact Nat.mod_lt _ (Nat.two_pow_pos _)

theorem field_zero (b n : Nat) : field b 0 n = b % 2 ^ n := by
  rw [field_eq_mod, Nat.shiftRight_zero, Nat.sub_zero]

theorem field_field (b base top : Nat) {start stop : Nat} (inside : stop ≤ top - base) :
    field (field b base top) start stop = field b (base + start) (base + stop) := by
  refine Nat.eq_of_testBit_eq fun i => ?_
  simp only [testBit_field, Nat.add_assoc, Nat.add_sub_add_left]
  by_cases h : i < stop - start
  · have : start + i < top - base := by omega
    simp [h, this]
  · simp [h]

/-- Two patterns side by side, the first one `w` bits wide. -/
theorem testBit_beside {a w : Nat} (h : a < 2 ^ w) (b i : Nat) :
    (a ||| b <<< w).testBit i = if i < w then a.testBit i else b.testBit (i - w) := by
  rw [Nat.testBit_or, Nat.testBit_shiftLeft]
  split
  next low => simp [Nat.not_le.mpr low]
  next high => simp [testBit_eq_false_of_lt h (Nat.not_lt.mp high), Nat.not_lt.mp high]

theorem beside_lt {a b u w : Nat} (ha : a < 2 ^ u) (hb : b < 2 ^ w) :
    a ||| b <<< u < 2 ^ (u + w) := by
  have wider : 2 ^ u ≤ 2 ^ (u + w) := Nat.pow_le_pow_right (by decide) (Nat.le_add_right u w)
  refine Nat.or_lt_two_pow (Nat.lt_of_lt_of_le ha wider) ?_
  rw [Nat.shiftLeft_eq, Nat.pow_add, Nat.mul_comm]
  exact Nat.mul_lt_mul_of_pos_left hb (Nat.two_pow_pos u)

theorem beside_assoc (a b c u w : Nat) :
    (a ||| b <<< u) ||| c <<< (u + w) = a ||| (b ||| c <<< w) <<< u := by
  rw [Nat.or_assoc, Nat.shiftLeft_or_distrib, ← Nat.shiftLeft_add, Nat.add_comm w u]

section Beside

variable {p w : Nat} (hp : p < 2 ^ w) (r lo start stop : Nat)

include hp

/-- A window over a part that begins at bit `lo`, and over what follows the part. -/
theorem field_beside (meets : start < lo + w ∧ lo < stop) :
    field p (max start lo - lo) (min stop (lo + w) - lo) |||
      field r (start - (lo + w)) (stop - (lo + w)) <<<
        (min stop (lo + w) - lo - (max start lo - lo)) =
      field (p ||| r <<< w) (start - lo) (stop - lo) := by
  refine Nat.eq_of_testBit_eq fun i => ?_
  rw [testBit_beside (field_lt ..), testBit_field, testBit_field, testBit_field, testBit_beside hp]
  grind

theorem field_beside_of_apart (apart : ¬ (start < lo + w ∧ lo < stop)) :
    field r (start - (lo + w)) (stop - (lo + w)) =
      field (p ||| r <<< w) (start - lo) (stop - lo) := by
  refine Nat.eq_of_testBit_eq fun i => ?_
  rw [testBit_field, testBit_field, testBit_beside hp]
  grind

end Beside

/-- Replacing bits of a pattern leaves what is below and above them. -/
theorem replaceField_eq {old new w start stop : Nat} (hnew : new < 2 ^ (stop - start))
    (order : start ≤ stop) (inside : stop ≤ w) :
    Frame.replaceField old new w start stop =
      field old 0 start ||| (new ||| field old stop w <<< (stop - start)) <<< start := by
  refine Nat.eq_of_testBit_eq fun i => ?_
  have low : field old 0 start < 2 ^ start := field_lt old 0 start
  rw [testBit_beside low, testBit_beside hnew, testBit_field, testBit_field]
  simp only [Frame.replaceField, Nat.testBit_or, Nat.testBit_and, Nat.testBit_xor,
    Nat.testBit_shiftLeft, testBit_mask, Nat.sub_zero]
  -- The bit lies below the window, in it, or above it.
  rcases Nat.lt_or_ge i start with below | above
  · have short : i < w := by omega
    simp [below, short, Nat.not_le.mpr below]
  rcases Nat.lt_or_ge i stop with within | beyond
  · have short : i < w := by omega
    have here : i - start < stop - start := by omega
    simp [above, Nat.not_lt.mpr above, short, here]
  · have past : ¬ i - start < stop - start := by omega
    have place : stop + (i - start - (stop - start)) = i := by omega
    have short : i - start - (stop - start) < w - stop ↔ i < w := by omega
    simp [above, Nat.not_lt.mpr above, past, place, short, Bool.and_comm]

/-- Copies of one bit are all ones or all zeros. -/
theorem repeated_bit (b : Bool) (n : Nat) : repeated b.toNat 1 n = if b then mask n else 0 := by
  induction n with
  | zero => cases b <;> rfl
  | succ n ih =>
    rw [repeated, ih, Nat.mul_one]
    cases b with
    | false => simp
    | true =>
      refine Nat.eq_of_testBit_eq fun i => ?_
      change (mask n ||| mask 1 <<< n).testBit i = (mask (n + 1)).testBit i
      rw [Nat.testBit_or, Nat.testBit_shiftLeft, testBit_mask, testBit_mask, testBit_mask]
      grind

namespace Expr

/-! ### Widths and patterns -/

/-- The expression is `w` bits wide and its value has this pattern. -/
structure HasBits (ρ : Valuation) (e : Expr) (w bits : Nat) : Prop where
  width : e.width = w
  eval : ∃ v, e.eval ρ = .ok v ∧ toBits v w = bits

/-- Parts side by side are `w` bits wide and have this pattern. -/
structure PartsHave (ρ : Valuation) (ps : List Expr) (w bits : Nat) : Prop where
  width : (Expr.concat ps).width = w
  eval : evalParts ρ ps = .ok bits

theorem width_concat_cons (p : Expr) (ps : List Expr) :
    (Expr.concat (p :: ps)).width = p.width + (Expr.concat ps).width := rfl

variable {ρ : Valuation} {e p : Expr} {ps qs : List Expr} {u w b c : Nat}

theorem hasBits_of_eval {v : Int} (h : e.eval ρ = .ok v) :
    e.HasBits ρ e.width (toBits v e.width) := ⟨rfl, v, h, rfl⟩

theorem HasBits.lt (h : e.HasBits ρ w b) : b < 2 ^ w := by
  obtain ⟨_, v, _, rfl⟩ := h
  exact toBits_lt v w

namespace PartsHave

theorem nil : PartsHave ρ [] 0 0 := ⟨rfl, rfl⟩

theorem cons (first : p.HasBits ρ u b) (rest : PartsHave ρ ps w c) :
    PartsHave ρ (p :: ps) (u + w) (b ||| c <<< u) := by
  obtain ⟨rfl, v, value, rfl⟩ := first
  obtain ⟨rfl, others⟩ := rest
  exact ⟨width_concat_cons p ps, by rw [evalParts, value, others]; rfl⟩

/-- What parts are made of, the first one apart. -/
theorem of_cons (h : PartsHave ρ (p :: ps) w b) :
    ∃ v c, p.eval ρ = .ok v ∧ PartsHave ρ ps (Expr.concat ps).width c ∧
      w = p.width + (Expr.concat ps).width ∧ b = toBits v p.width ||| c <<< p.width := by
  obtain ⟨rfl, value⟩ := h
  rw [evalParts] at value
  obtain ⟨v, first, value⟩ := bind_eq_ok.mp value
  obtain ⟨c, others, value⟩ := bind_eq_ok.mp value
  exact ⟨v, c, first, ⟨rfl, others⟩, width_concat_cons p ps, pure_eq_ok.mp value⟩

theorem of_nil (h : PartsHave ρ [] w b) : w = 0 ∧ b = 0 := by
  obtain ⟨rfl, value⟩ := h
  cases value
  exact ⟨rfl, rfl⟩

theorem lt (h : PartsHave ρ ps w b) : b < 2 ^ w := by
  induction ps generalizing w b with
  | nil =>
    obtain ⟨rfl, rfl⟩ := h.of_nil
    decide
  | cons p ps ih =>
    obtain ⟨v, c, _, others, rfl, rfl⟩ := h.of_cons
    exact beside_lt (toBits_lt v p.width) (ih others)

theorem singleton (h : p.HasBits ρ w b) : PartsHave ρ [p] w b := by
  simpa using cons h nil

/-- A part without bits may be left out. -/
theorem optional {q : Prop} [Decidable q] (h : p.HasBits ρ w b) (empty : ¬ q → w = 0) :
    PartsHave ρ (if q then [p] else []) w b := by
  split
  next => exact singleton h
  next hq =>
    have none := h.lt
    rw [empty hq] at none ⊢
    obtain rfl : b = 0 := by omega
    exact nil

theorem append (left : PartsHave ρ ps u b) (right : PartsHave ρ qs w c) :
    PartsHave ρ (ps ++ qs) (u + w) (b ||| c <<< u) := by
  induction ps generalizing u b with
  | nil =>
    obtain ⟨rfl, rfl⟩ := left.of_nil
    simpa using right
  | cons p ps ih =>
    obtain ⟨v, d, first, others, rfl, rfl⟩ := left.of_cons
    rw [Nat.add_assoc, beside_assoc]
    exact cons (hasBits_of_eval first) (ih others)

theorem concat (h : PartsHave ρ ps w b) : (Expr.concat ps).HasBits ρ w b := by
  obtain ⟨rfl, value⟩ := h
  refine ⟨rfl, _, by rw [Expr.eval, value]; rfl, ?_⟩
  exact (Shape.toBits_wrap ..).trans (toBits_of_lt (lt ⟨rfl, value⟩))

theorem join (h : PartsHave ρ ps w b) : (Expr.join ps).HasBits ρ w b := by
  match ps with
  | [] => exact h.concat
  | p :: q :: ps => exact h.concat
  | [p] =>
    obtain ⟨v, c, first, none, rfl, rfl⟩ := h.of_cons
    obtain ⟨empty, rfl⟩ := none.of_nil
    simpa [Expr.join, empty] using hasBits_of_eval first

end PartsHave

/-! ### Cutting -/

theorem slice_hasBits {a : Expr} {v : Int} (value : a.eval ρ = .ok v) (start stop : Nat) :
    (Expr.slice a start stop).HasBits ρ (stop - start) (field (toBits v a.width) start stop) := by
  refine ⟨rfl, _, by rw [eval, value]; rfl, ?_⟩
  exact (Shape.toBits_wrap ..).trans (toBits_of_lt (field_lt ..))

theorem literal_hasBits (ρ : Valuation) (v : Int) (s : Shape) :
    (Expr.sized v s).HasBits ρ s.width (toBits v s.width) := by
  refine ⟨rfl, _, rfl, ?_⟩
  exact (Shape.toBits_wrap ..).trans (Shape.toBits_wrap ..)

mutual
theorem extract_hasBits (e : Expr) {v : Int} (value : e.eval ρ = .ok v) (start stop : Nat)
    (order : start ≤ stop) (inside : stop ≤ e.width) :
    (e.extract start stop).HasBits ρ (stop - start) (field (toBits v e.width) start stop) := by
  by_cases whole : start = 0 ∧ stop = e.width
  · obtain ⟨rfl, rfl⟩ := whole
    rw [field_zero, Nat.mod_eq_of_lt (toBits_lt v e.width)]
    unfold extract
    simpa using hasBits_of_eval value
  match e with
  | .literal c =>
    cases value
    rw [extract, if_neg whole]
    have cut := literal_hasBits ρ (toBits c.value c.shape.width >>> start : Nat)
      ⟨stop - start, c.shape.signed⟩
    rw [toBits_ofNat, ← field_eq_mod] at cut
    change HasBits _ _ _ (field (toBits (c.shape.wrap c.value) c.shape.width) start stop)
    rwa [Shape.toBits_wrap]
  | .slice a base top =>
    rw [extract, if_neg whole]
    rw [eval] at value
    obtain ⟨u, inner, value⟩ := bind_eq_ok.mp value
    cases value
    -- The window is moved by the start of the slice it is taken from.
    have cut := slice_hasBits inner (base + start) (base + stop)
    rw [Nat.add_sub_add_left, ← field_field _ base top inside] at cut
    have bits : toBits ((Expr.slice a base top).shape.wrap (field (toBits u a.width) base top))
        (Expr.slice a base top).width = field (toBits u a.width) base top :=
      (Shape.toBits_wrap ..).trans (toBits_of_lt (field_lt ..))
    rwa [bits]
  | .concat ps =>
    rw [extract, if_neg whole]
    rw [eval] at value
    obtain ⟨b, parts, value⟩ := bind_eq_ok.mp value
    cases value
    have have_parts : PartsHave ρ ps (Expr.concat ps).width b := ⟨rfl, parts⟩
    have bits : toBits ((Expr.concat ps).shape.wrap b) (Expr.concat ps).width = b :=
      (Shape.toBits_wrap ..).trans (toBits_of_lt have_parts.lt)
    have cut := (extractParts_have ps parts 0 order).join
    simpa [bits, Nat.min_eq_left inside] using cut
  | .signal _ | .ref _ | .unary .. | .binary .. | .replicate .. | .mux .. =>
    rw [extract, if_neg whole]
    exact slice_hasBits value start stop

/-- Of parts that begin at bit `lo`, what a window covers. -/
theorem extractParts_have (ps : List Expr) {b : Nat} (parts : evalParts ρ ps = .ok b) (lo : Nat)
    {start stop : Nat} (order : start ≤ stop) :
    PartsHave ρ (extractParts ps lo start stop)
      (min stop (lo + (Expr.concat ps).width) - max start lo)
      (field b (start - lo) (stop - lo)) := by
  match ps with
  | [] =>
    cases parts
    have none : min stop (lo + (Expr.concat []).width) - max start lo = 0 := by
      change min stop (lo + 0) - max start lo = 0
      omega
    rw [none, extractParts, field_eq_mod, Nat.zero_shiftRight, Nat.zero_mod]
    exact .nil
  | p :: ps =>
    have all : PartsHave ρ (p :: ps) (Expr.concat (p :: ps)).width b := ⟨rfl, parts⟩
    obtain ⟨v, c, first, others, _, rfl⟩ := all.of_cons
    have rest := extractParts_have ps others.eval (lo + p.width) order
    rw [width_concat_cons, extractParts]
    by_cases meets : start < lo + p.width ∧ lo < stop
    · rw [if_pos meets, ← field_beside (toBits_lt v p.width) c lo start stop meets]
      have here := extract_hasBits p first (max start lo - lo) (min stop (lo + p.width) - lo)
        (by omega) (by omega)
      have both := PartsHave.cons here rest
      have width : min stop (lo + p.width) - lo - (max start lo - lo)
          + (min stop (lo + p.width + (Expr.concat ps).width) - max start (lo + p.width))
          = min stop (lo + (p.width + (Expr.concat ps).width)) - max start lo := by omega
      rwa [width] at both
    · rw [if_neg meets, ← field_beside_of_apart (toBits_lt v p.width) c lo start stop meets]
      have width : min stop (lo + p.width + (Expr.concat ps).width) - max start (lo + p.width)
          = min stop (lo + (p.width + (Expr.concat ps).width)) - max start lo := by omega
      rwa [width] at rest
end

theorem HasBits.extract {start stop : Nat} (h : e.HasBits ρ w b) (order : start ≤ stop)
    (inside : stop ≤ w) : (e.extract start stop).HasBits ρ (stop - start) (field b start stop) := by
  obtain ⟨rfl, v, value, rfl⟩ := h
  exact extract_hasBits e value start stop order inside

/-! ### Fitting -/

/-- Nothing stands above a wrapped unsigned number. -/
theorem toBits_of_wrap_unsigned {v : Int} (wrapped : v = toBits v u) (wider : u ≤ w) :
    toBits v u = toBits v w := by
  have lt := Nat.lt_of_lt_of_le (toBits_lt v u) (Nat.pow_le_pow_right (by decide) wider)
  calc toBits v u = toBits (toBits v u : Nat) w := (toBits_of_lt lt).symm
    _ = toBits v w := by rw [← wrapped]

/-- The top bit of a wrapped signed number stands for all bits above it. -/
theorem toBits_of_wrap_signed {v : Int} (wrapped : wrap v w true = v) (pad : Nat) :
    toBits v w ||| (if (toBits v w).testBit (w - 1) then mask pad else 0) <<< w =
      toBits v (w + pad) := by
  rw [wrap, Bool.true_and] at wrapped
  split at wrapped
  next negative =>
    rw [Nat.one_shiftLeft] at wrapped
    rw [if_pos negative, Nat.or_comm, ← Nat.shiftLeft_add_eq_or_of_lt (toBits_lt v w),
      Nat.shiftLeft_eq, mask_eq]
    have lt := toBits_lt v w
    have pos := Nat.two_pow_pos w
    have pad_pos := Nat.two_pow_pos pad
    -- The extended pattern is the number with the range of the wider shape added.
    have total : (2 ^ pad - 1) * 2 ^ w + 2 ^ w = 2 ^ (w + pad) := by
      rw [Nat.pow_add, ← Nat.succ_mul, Nat.succ_eq_add_one, Nat.sub_add_cancel pad_pos,
        Nat.mul_comm]
    generalize extended : (2 ^ pad - 1) * 2 ^ w + toBits v w = n
    have number : (n : Int) - 1 * (2 ^ (w + pad) : Nat) = v := by omega
    calc n = toBits n (w + pad) := (toBits_of_lt (by omega)).symm
      _ = toBits v (w + pad) := by rw [← toBits_sub_mul n 1, number]
  next positive =>
    rw [if_neg positive, Nat.zero_shiftLeft, Nat.or_zero]
    exact toBits_of_wrap_unsigned wrapped.symm (Nat.le_add_right w pad)

theorem replicate_hasBits {bit : Bool} (h : e.HasBits ρ 1 bit.toNat) {n : Nat}
    (bound : n ≤ maxWidth) :
    (Expr.replicate e n).HasBits ρ n (if bit then mask n else 0) := by
  obtain ⟨one, v, value, bits⟩ := h
  have width : (Expr.replicate e n).shape.width = n := by
    change saturate (e.width * n) = n
    rw [one, Nat.one_mul, saturate, Nat.min_eq_left bound]
  have lt : (if bit then mask n else 0) < 2 ^ n := by
    have pos := Nat.two_pow_pos n
    rw [mask]
    split <;> omega
  have kept := (Expr.replicate e n).shape.toBits_wrap (if bit then mask n else 0 : Nat)
  rw [width, toBits_of_lt lt] at kept
  refine ⟨width, _, by rw [eval, value]; rfl, ?_⟩
  rwa [one, bits, repeated_bit]

theorem extension_hasBits {v : Int} (value : e.eval ρ = .ok v) (wrapped : e.shape.wrap v = v)
    {pad : Nat} (bound : pad ≤ maxWidth) :
    ∃ b, (e.extension pad).HasBits ρ pad b ∧
      toBits v e.width ||| b <<< e.width = toBits v (e.width + pad) := by
  rw [extension]
  by_cases top : e.shape.signed ∧ 0 < e.width
  · rw [if_pos top]
    have last := (hasBits_of_eval value).extract (Nat.sub_le e.width 1) (Nat.le_refl _)
    have one : e.width - (e.width - 1) = 1 := by omega
    rw [field_eq_mod, one, Nat.shiftRight_eq_div_pow, Nat.pow_one, ← Nat.toNat_testBit] at last
    -- The top bit alone, repeated, stands above a signed value.
    have signed : wrap v e.width true = v := top.1 ▸ wrapped
    exact ⟨_, replicate_hasBits last bound, toBits_of_wrap_signed signed pad⟩
  · rw [if_neg top]
    have zeros := literal_hasBits ρ 0 (.unsigned pad)
    refine ⟨_, zeros, ?_⟩
    have none : toBits 0 pad = 0 := toBits_of_lt (Nat.two_pow_pos pad)
    change _ ||| toBits 0 pad <<< _ = _
    rw [none, Nat.zero_shiftLeft, Nat.or_zero]
    refine toBits_of_wrap_unsigned ?_ (Nat.le_add_right _ pad)
    exact wrapped.symm.trans (e.shape.wrap_eq_toBits v top)

/-- A value keeps its low bits when it is cut or extended. -/
theorem fit_hasBits {v : Int} (value : e.eval ρ = .ok v) (wrapped : e.shape.wrap v = v)
    (literal : ∀ c, e = .literal c → c.shape.wrap c.value = c.value) (bound : w ≤ maxWidth) :
    (e.fit w).HasBits ρ w (toBits v w) := by
  by_cases same : e.width = w
  · subst same
    unfold fit
    simpa using hasBits_of_eval value
  rw [fit, if_neg same]
  cases number : e.literal? with
  | some c =>
    -- A literal is cut as a number, so its value has to be one of its shape.
    obtain rfl : e = .literal c := by
      cases e with
      | literal d => exact congrArg Expr.literal (Option.some.inj number)
      | _ => cases number
    cases value
    have cut := literal_hasBits ρ c.value (.unsigned w)
    rw [literal c rfl]
    exact cut
  | none =>
    by_cases shorter : w < e.width
    · simp only [if_pos shorter]
      have cut := (hasBits_of_eval value).extract (Nat.zero_le w) shorter.le
      rwa [field_zero, toBits_mod v shorter.le, Nat.sub_zero] at cut
    · simp only [if_neg shorter]
      obtain ⟨b, above, bits⟩ :=
        extension_hasBits value wrapped (Nat.le_trans (Nat.sub_le w e.width) bound)
      have both := (PartsHave.cons (hasBits_of_eval value) (.singleton above)).concat
      rwa [bits, Nat.add_sub_cancel' (Nat.not_lt.mp shorter)] at both

theorem HasBits.splice {old new : Expr} {o n start stop : Nat} (held : old.HasBits ρ w o)
    (fitted : (new.fit (stop - start)).HasBits ρ (stop - start) n) (order : start ≤ stop)
    (inside : stop ≤ w) :
    (Symbolic.splice old new start stop).HasBits ρ w (Frame.replaceField o n w start stop) := by
  -- Three parts: below the window, the window, and above it. The outer ones may be empty.
  have low := held.extract (Nat.zero_le start) (order.trans inside)
  have high := held.extract inside (Nat.le_refl w)
  rw [Symbolic.splice, held.width]
  rw [Nat.sub_zero] at low
  have parts := (PartsHave.append (.optional (q := 0 < start) low (by omega))
    (.append (.singleton fitted) (.optional (q := stop < w) high (by omega)))).join
  rw [replaceField_eq fitted.lt order inside]
  have width : start + (stop - start + (w - stop)) = w := by omega
  rw [width] at parts
  rwa [List.append_assoc]

/-! ### Values -/

theorem HasBits.testBit (h : e.HasBits ρ w b) :
    ∃ v, e.eval ρ = .ok v ∧ ∀ i < w, v.testBit i = b.testBit i := by
  obtain ⟨-, v, value, rfl⟩ := h
  refine ⟨v, value, fun i inside => ?_⟩
  rw [testBit_toBits, decide_eq_true inside, Bool.true_and]

/-- In a state with all signals in range, an expression without references has a value. Bits `start`
up to `stop` of the expression, simplified, are that wide and have these bits of its value. The
expression fitted to a width has that width and its value up to a multiple of the range. A literal
to be fitted has to be a number of its shape. -/
theorem simplified_keep_bits (ρ : Valuation) (e : Expr)
    (inRange : ∀ s ∈ e.mentions, s.shape.Holds (ρ s))
    (literal : ∀ c, e.literal? = some c → c.shape.Holds c.value) :
    (e.refs = [] → ∃ v, e.eval ρ = .ok v) ∧
    ∀ v, e.eval ρ = .ok v →
      (∀ start stop, start ≤ stop → stop ≤ e.width →
        (e.extract start stop).width = stop - start ∧
        ∃ u, (e.extract start stop).eval ρ = .ok u ∧
          ∀ i < stop - start, u.testBit i = v.testBit (start + i)) ∧
      ∀ w ≤ maxWidth, (e.fit w).width = w ∧
        ∃ u, (e.fit w).eval ρ = .ok u ∧ u ≡ v [ZMOD 2 ^ w] := by
  refine ⟨eval_ok ρ e, fun v value => ⟨fun start stop order inside => ?_, fun w bound => ?_⟩⟩
  · have cut := extract_hasBits e value start stop order inside
    obtain ⟨u, result, bits⟩ := cut.testBit
    refine ⟨cut.width, u, result, fun i hi => ?_⟩
    have here : start + i < e.width := by omega
    rw [bits i hi, testBit_field, testBit_toBits, decide_eq_true hi, decide_eq_true here,
      Bool.true_and, Bool.true_and]
  · have fitted := fit_hasBits value (eval_wrapped inRange value)
      (fun c named => Shape.wrap_eq_self_iff.mpr (literal c (named ▸ rfl))) bound
    obtain ⟨u, result, low⟩ := fitted.eval
    exact ⟨fitted.width, u, result, toBits_eq_iff.mp low⟩

namespace Sample

def reading : Signal := ⟨⟨0⟩, "reading", .signedOf 4, 0, false⟩

/-- A signed value, a literal and the upper bits of the value side by side. -/
def packet : Expr :=
  .concat [.signal reading, .sized 5 (.unsigned 3), .slice (.signal reading) 1 4]

end Sample

open Sample

/-- A slice that begins and ends inside of parts, and a negative value made wider. -/
theorem packet_keeps_bits :
    packet.eval (fun _ => -3) = .ok 861 ∧
    (packet.extract 2 9).width = 7 ∧
    (∃ u, (packet.extract 2 9).eval (fun _ => -3) = .ok u ∧
      ∀ i < 7, u.testBit i = (861 : Int).testBit (2 + i)) ∧
    ((Expr.signal reading).fit 8).width = 8 ∧
    ∃ u, ((Expr.signal reading).fit 8).eval (fun _ => -3) = .ok u ∧ u ≡ -3 [ZMOD 2 ^ 8] := by
  have value : packet.eval (fun _ => -3) = .ok 861 := by decide +kernel
  have cut := (simplified_keep_bits (fun _ => -3) packet (by decide)
    (by simp [packet, literal?])).2 861 value
  have fitted := (simplified_keep_bits (fun _ => -3) (.signal reading) (by decide)
    (by simp [literal?])).2 (-3) rfl
  obtain ⟨width, bits⟩ := cut.1 2 9 (by decide) (by decide)
  exact ⟨value, width, bits, fitted.2 8 (by decide)⟩

end Expr

end Gateware
