import Gateware.Proofs.Folding.Store
import Gateware.Proofs.Mentions

/-!
# Overwriting a slice

A signal is assigned as a whole and then in part. Run on numbers, the second assignment changes the
bits of the slice and no others. Run on expressions it is spliced into the expression of the first
one, which has a width of its own, and this module says when that comes to the same.

## Main results

`folded_overwrite_iff`: the spliced expression has the bits that a run leaves, always if the first
value is at least as wide as the signal, and otherwise exactly if what splicing puts between the end
of that value and the slice, and above the slice, happens to extend the value's sign.

`narrow_overwrite_lost`: so a bit of a narrow signed value can be lost.

## Proof strategy

Above its own width a value has copies of its sign (`testBit_toBits_of_wrapped`). If the slice
begins within the first value, the spliced expression has the right bits up to the end of both
(`splice_hasBits`), and only its sign is left to be compared. If the slice begins past the end, the
lower part is cut where nothing is, and its bits depend on the form of the value
(`exists_extract_beyond`).
-/
namespace Gateware

/-! ### Bits above the width -/

theorem testBit_toBits_congr (v : Int) {m n k : Nat} (hm : k < m) (hn : k < n) :
    (toBits v m).testBit k = (toBits v n).testBit k := by
  have low : ∀ {u w : Nat}, u ≤ w → k < u → (toBits v w).testBit k = (toBits v u).testBit k := by
    intro u w wider hu
    rw [← toBits_mod v wider, Nat.testBit_mod_two_pow, decide_eq_true hu, Bool.true_and]
  rcases Nat.le_total m n with shorter | longer
  · exact (low shorter hm).symm
  · exact low longer hn

/-- Above the width of its shape a number has copies of its sign. -/
theorem testBit_toBits_of_wrapped {s : Shape} {v : Int} (wrapped : s.wrap v = v) {n k : Nat}
    (hk : k < n) :
    (toBits v n).testBit k =
      if k < s.width then (toBits v s.width).testBit k else decide (v < 0) := by
  split
  next below => exact testBit_toBits_congr v hk below
  next above =>
    have wider : s.width ≤ k := Nat.not_lt.mp above
    by_cases signed : s.signed ∧ 0 < s.width
    · have extended := Expr.toBits_of_wrap_signed (w := s.width) (v := v) (signed.1 ▸ wrapped)
        (n - s.width)
      rw [Nat.add_sub_cancel' (by omega)] at extended
      have sign : (toBits v s.width).testBit (s.width - 1) = decide (v < 0) := by
        have lt := toBits_lt v s.width
        have value : wrap v s.width true = v := signed.1 ▸ wrapped
        rw [wrap, Bool.true_and, Nat.one_shiftLeft] at value
        split at value
        next top => rw [top, decide_eq_true (by omega)]
        next top => rw [Bool.eq_false_iff.mpr top, decide_eq_false (by omega)]
      rw [← extended, testBit_beside (toBits_lt v s.width), if_neg above, sign]
      by_cases negative : v < 0
      · have here : k - s.width < n - s.width := by omega
        simp [negative, testBit_mask, here]
      · simp [negative]
    · have number := s.wrap_eq_toBits v signed
      rw [wrapped] at number
      rw [← Expr.toBits_of_wrap_unsigned number (by omega),
        testBit_eq_false_of_lt (toBits_lt v s.width) wider, decide_eq_false (by omega)]

namespace Expr

variable {ρ : Valuation}

/-! ### Splicing within the first value -/

/-- A pattern that has the bits of `new` from `start` up to `stop`, and those of `old` elsewhere. -/
def Spliced (old new width start stop bits : Nat) : Prop :=
  ∀ k < width, bits.testBit k =
    if start ≤ k ∧ k < stop then new.testBit (k - start) else old.testBit k

theorem spliced_replaceField {old new width start stop : Nat} (hnew : new < 2 ^ (stop - start))
    (order : start ≤ stop) (inside : stop ≤ width) :
    Spliced old new width start stop (Frame.replaceField old new width start stop) := by
  intro k hk
  have low : field old 0 start < 2 ^ start := field_lt old 0 start
  rw [replaceField_eq hnew order inside, testBit_beside low, testBit_beside hnew, testBit_field,
    testBit_field]
  -- The bit lies below the window, in it, or above it.
  rcases Nat.lt_or_ge k start with below | above
  · simp [below, Nat.not_le.mpr below]
  rcases Nat.lt_or_ge k stop with within | beyond
  · have here : k - start < stop - start := by omega
    simp [above, Nat.not_lt.mpr above, within, here]
  · have past : ¬ k - start < stop - start := by omega
    have place : stop + (k - start - (stop - start)) = k := by omega
    have short : k - start - (stop - start) < width - stop := by omega
    simp [Nat.not_lt.mpr above, Nat.not_lt.mpr beyond, past, place, short]

/-- If the slice begins within the first value, the spliced expression reaches to the end of both
and has the bits of both. -/
theorem splice_hasBits {r v : Expr} {i j w a b : Nat} (held : r.HasBits ρ w a)
    (fitted : (v.fit (j - i)).HasBits ρ (j - i) b) (order : i ≤ j) (begins : i ≤ w) :
    ∃ bits, (Symbolic.splice r v i j).HasBits ρ (max w j) bits ∧
      Spliced a b (max w j) i j bits := by
  by_cases inside : j ≤ w
  · rw [Nat.max_eq_left inside]
    exact ⟨_, held.splice fitted order inside, spliced_replaceField fitted.lt order inside⟩
  · -- Nothing of the first value stands above the slice.
    have low := held.extract (Nat.zero_le i) begins
    rw [Nat.sub_zero] at low
    have parts := (PartsHave.append (.optional (q := 0 < i) low (by omega))
      (.singleton fitted)).join
    rw [Nat.add_sub_cancel' order] at parts
    refine ⟨field a 0 i ||| b <<< i, ?_, fun k hk => ?_⟩
    · have none : ¬ j < w := fun more => inside more.le
      rw [Nat.max_eq_right (by omega), Symbolic.splice, held.width, if_neg none, List.append_nil]
      exact parts
    · have cut : field a 0 i < 2 ^ i := field_lt a 0 i
      rw [testBit_beside cut, testBit_field]
      grind

/-- Several parts side by side have no sign. -/
theorem nonneg_of_concat {ps : List Expr} {v : Int} (value : (Expr.concat ps).eval ρ = .ok v) :
    0 ≤ v := by
  rw [eval] at value
  obtain ⟨b, -, value⟩ := bind_eq_ok.mp value
  cases value
  exact Int.natCast_nonneg _

/-- A spliced expression has a sign only if it is the new value alone. -/
theorem splice_neg_iff {r v : Expr} {i j : Nat} {E F : Int}
    (value : (Symbolic.splice r v i j).eval ρ = .ok E) (fitted : (v.fit (j - i)).eval ρ = .ok F) :
    E < 0 ↔ i = 0 ∧ r.width ≤ j ∧ F < 0 := by
  rw [Symbolic.splice] at value
  by_cases low : 0 < i
  · have several : 0 ≤ E := by
      rw [if_pos low] at value
      exact nonneg_of_concat value
    omega
  · by_cases high : j < r.width
    · have several : 0 ≤ E := by
        rw [if_neg low, if_pos high] at value
        exact nonneg_of_concat value
      omega
    · rw [if_neg low, if_neg high] at value
      cases fitted.symm.trans value
      omega

/-! ### Splicing past the end of the first value -/

section Beyond

variable {i : Nat}

/-- Past the end of a slice stand the bits of what it was taken from. -/
theorem extract_slice_beyond {a : Expr} {A : Int} {start stop : Nat} (inner : a.eval ρ = .ok A)
    (past : stop - start < i) :
    ((Expr.slice a start stop).extract 0 i).HasBits ρ i
      (field (toBits A a.width) start (start + i)) := by
  have longer : ¬ (0 = 0 ∧ i = (Expr.slice a start stop).width) := fun same =>
    Nat.ne_of_gt past same.2
  rw [extract, if_neg longer]
  have cut := slice_hasBits inner start (start + i)
  rwa [Nat.add_sub_cancel_left] at cut

/-- Past the end of a concatenation there is nothing, and what comes next moves down. -/
theorem extract_concat_beyond {ps : List Expr} {b : Nat} (parts : evalParts ρ ps = .ok b)
    (past : (Expr.concat ps).width < i) :
    ((Expr.concat ps).extract 0 i).HasBits ρ (Expr.concat ps).width b := by
  have longer : ¬ (0 = 0 ∧ i = (Expr.concat ps).width) := fun same => Nat.ne_of_gt past same.2
  have lt : b < 2 ^ (Expr.concat ps).width := PartsHave.lt ⟨rfl, parts⟩
  have cut := (extractParts_have ps parts 0 (Nat.zero_le i)).join
  rw [Nat.zero_add, Nat.max_self, Nat.sub_zero, Nat.sub_zero, Nat.sub_zero, field_zero,
    Nat.min_eq_right past.le, Nat.mod_eq_of_lt (Nat.lt_of_lt_of_le lt
      (Nat.pow_le_pow_right (by decide) past.le))] at cut
  rwa [extract, if_neg longer]

/-- Past the end of any other expression stand zeros. -/
theorem extract_plain_beyond {r : Expr} {R : Int} (value : r.eval ρ = .ok R) (past : r.width < i)
    (noSlice : ∀ a start stop, r ≠ .slice a start stop) (noConcat : ∀ ps, r ≠ .concat ps) :
    (r.extract 0 i).HasBits ρ i (toBits R r.width) := by
  have longer : ¬ (0 = 0 ∧ i = r.width) := fun same => Nat.ne_of_gt past same.2
  have lt := Nat.lt_of_lt_of_le (toBits_lt R r.width) (Nat.pow_le_pow_right (by decide) past.le)
  cases r with
  | literal c =>
    cases value
    have cut := literal_hasBits ρ (toBits c.value c.shape.width >>> 0 : Nat)
      ⟨i - 0, c.shape.signed⟩
    rw [extract, if_neg longer]
    change HasBits _ _ _ (toBits (c.shape.wrap c.value) c.shape.width)
    change toBits (c.shape.wrap c.value) c.shape.width < 2 ^ i at lt
    rw [Shape.toBits_wrap] at lt ⊢
    rw [Nat.shiftRight_zero, Nat.sub_zero, toBits_of_lt lt] at cut
    exact cut
  | slice a start stop => exact absurd rfl (noSlice a start stop)
  | concat ps => exact absurd rfl (noConcat ps)
  | signal | ref | unary | binary | replicate | mux =>
    have cut := slice_hasBits value 0 i
    rw [field_zero, Nat.mod_eq_of_lt lt, Nat.sub_zero] at cut
    rw [extract, if_neg longer]
    exact cut

theorem exists_extract_beyond {r : Expr} {R : Int} (value : r.eval ρ = .ok R)
    (past : r.width < i) : ∃ u low, (r.extract 0 i).HasBits ρ u low := by
  cases r with
  | slice a start stop =>
    rw [eval] at value
    obtain ⟨A, inner, -⟩ := bind_eq_ok.mp value
    exact ⟨_, _, extract_slice_beyond inner past⟩
  | concat ps =>
    rw [eval] at value
    obtain ⟨b, parts, -⟩ := bind_eq_ok.mp value
    exact ⟨_, _, extract_concat_beyond parts past⟩
  | literal | signal | ref | unary | binary | replicate | mux =>
    exact ⟨_, _, extract_plain_beyond value past (by simp) (by simp)⟩

/-- If the slice begins past the end of the first value, two parts are put side by side. -/
theorem splice_beyond_hasBits {r v : Expr} {j u low b : Nat}
    (lower : (r.extract 0 i).HasBits ρ u low)
    (fitted : (v.fit (j - i)).HasBits ρ (j - i) b) (order : i ≤ j) (past : r.width < i) :
    (Symbolic.splice r v i j).HasBits ρ (u + (j - i)) (low ||| b <<< u) := by
  rw [Symbolic.splice, if_pos (by omega), if_neg (by omega)]
  exact (PartsHave.cons lower (.singleton fitted)).concat

end Beyond

/-- Whether the bits that splicing puts between the end of a value `R` and bit `i` are copies of its
sign, when bits from `i` up to `j` take the value `V`. -/
def GapFilled (ρ : Valuation) (R V : Int) (i j : Nat) : Expr → Prop
  | .slice a start stop => ∀ A, a.eval ρ = .ok A → ∀ k, stop - start ≤ k → k < i →
      (toBits A a.width).testBit (start + k) = decide (R < 0)
  | .concat _ => toBits V (j - i) = 0
  | _ => 0 ≤ R

/-! ### Comparing the bits -/

section Compare

variable {s t : Shape} {R E : Int} {new i j n : Nat}

/-- The bits up to the end of both values are right, so the signs decide. -/
theorem spliced_within_iff (first : s.wrap R = R) (whole : t.wrap E = E)
    (reach : t.width = max s.width j)
    (bits : Spliced (toBits R s.width) new (max s.width j) i j (toBits E t.width))
    (begins : i ≤ s.width) (inside : j ≤ n) :
    Spliced (toBits R n) new n i j (toBits E n) ↔
      (s.width < n → j < n → (R < 0 ↔ E < 0)) := by
  constructor
  · intro spliced narrow short
    have here : max s.width j < n := by omega
    have outside : ¬ (i ≤ max s.width j ∧ max s.width j < j) := by omega
    have same := spliced _ here
    rw [if_neg outside, testBit_toBits_of_wrapped first here, testBit_toBits_of_wrapped whole here,
      if_neg (by omega), if_neg (by omega)] at same
    exact (decide_eq_decide.mp same).symm
  · intro signs k hk
    rw [testBit_toBits_of_wrapped first hk, testBit_toBits_of_wrapped whole hk]
    by_cases covered : k < max s.width j
    · rw [if_pos (reach ▸ covered), bits k covered]
      split
      next => rfl
      next => rw [if_pos (by omega)]
    · rw [if_neg (reach ▸ covered), if_neg (by omega), if_neg (by omega)]
      exact decide_eq_decide.mpr (signs (by omega) (by omega)).symm

/-- Below the slice stands `low`, which goes on where the first value ends; above it nothing. -/
theorem spliced_beyond_iff {low : Nat} (first : s.wrap R = R) (whole : t.wrap E = E)
    (reach : t.width = j) (unsigned : 0 ≤ E) (cut : low < 2 ^ i)
    (bits : toBits E j = low ||| new <<< i)
    (agrees : ∀ k < s.width, low.testBit k = (toBits R s.width).testBit k) (past : s.width < i)
    (order : i ≤ j) (inside : j ≤ n) :
    Spliced (toBits R n) new n i j (toBits E n) ↔
      (∀ k, s.width ≤ k → k < i → low.testBit k = decide (R < 0)) ∧ (j < n → 0 ≤ R) := by
  have found : ∀ k < n, (toBits E n).testBit k =
      if k < i then low.testBit k else if k < j then new.testBit (k - i) else false := by
    intro k hk
    rw [testBit_toBits_of_wrapped whole hk, reach, bits, testBit_beside cut,
      decide_eq_false (by omega)]
    split
    next => rfl
    next => rw [if_neg (by omega)]
  constructor
  · intro spliced
    refine ⟨fun k above hk => ?_, fun short => ?_⟩
    · have same := spliced k (by omega)
      rwa [found k (by omega), if_pos hk, if_neg (by omega),
        testBit_toBits_of_wrapped first (by omega), if_neg (Nat.not_lt.mpr above)] at same
    · have same := spliced j short
      rw [found j short, if_neg (by omega), if_neg (by omega), if_neg (by omega),
        testBit_toBits_of_wrapped first short, if_neg (by omega)] at same
      exact Int.not_lt.mp (of_decide_eq_false same.symm)
  · rintro ⟨gap, above⟩ k hk
    rw [found k hk, testBit_toBits_of_wrapped first hk]
    rcases Nat.lt_or_ge k i with low | high
    · rw [if_pos low, if_neg (by omega)]
      split
      next within => exact agrees k within
      next beyond => exact gap k (Nat.not_lt.mp beyond) low
    rcases Nat.lt_or_ge k j with within | beyond
    · rw [if_neg (by omega), if_pos within, if_pos ⟨high, within⟩]
    · rw [if_neg (by omega), if_neg (by omega), if_neg (by omega), if_neg (by omega),
        decide_eq_false]
      exact Int.not_lt.mpr (above (by omega))

/-- A value that has moved down is right only if it has no bits. -/
theorem spliced_moved_iff (first : s.wrap R = R) (whole : t.wrap E = E)
    (reach : t.width = s.width + (j - i)) (natural : 0 ≤ R) (unsigned : 0 ≤ E)
    (hnew : new < 2 ^ (j - i)) (bits : toBits E t.width = toBits R s.width ||| new <<< s.width)
    (past : s.width < i) (order : i ≤ j) (inside : j ≤ n) :
    Spliced (toBits R n) new n i j (toBits E n) ↔ new = 0 := by
  have found : ∀ k < n, (toBits E n).testBit k =
      if k < s.width then (toBits R s.width).testBit k else new.testBit (k - s.width) := by
    intro k hk
    rw [testBit_toBits_of_wrapped whole hk, bits, testBit_beside (toBits_lt R s.width),
      decide_eq_false (by omega)]
    split
    next => rfl
    next =>
      rw [if_neg (by omega), testBit_eq_false_of_lt hnew (by omega)]
  have expected : ∀ k < n, (toBits R n).testBit k =
      if k < s.width then (toBits R s.width).testBit k else false := by
    intro k hk
    rw [testBit_toBits_of_wrapped first hk, decide_eq_false (by omega)]
  constructor
  · intro spliced
    by_contra some
    -- The lowest bit of the value stands where the slice has a lower bit, or where it has none.
    have exists_bit : ∃ m, new.testBit m = true := Nat.exists_testBit_of_ne_zero some
    have lowest := Nat.find_spec exists_bit
    have lower := fun {m} => Nat.find_min exists_bit (m := m)
    generalize Nat.find exists_bit = m at lowest lower
    have bound : m < j - i := by
      by_contra far
      rw [testBit_eq_false_of_lt hnew (Nat.not_lt.mp far)] at lowest
      cases lowest
    have same := spliced (s.width + m) (by omega)
    rw [found _ (by omega), if_neg (by omega), Nat.add_sub_cancel_left, lowest] at same
    split at same
    next => exact lower (by omega) same.symm
    next =>
      rw [expected _ (by omega), if_neg (by omega)] at same
      cases same
  · rintro rfl k hk
    rw [found k hk, expected k hk, Nat.zero_testBit, Nat.zero_testBit]
    split
    next low => rw [if_neg (by omega)]
    next => rw [ite_self]

end Compare

end Expr

namespace Stmt

open Gateware.Expr (Spliced GapFilled)

/-! ### A signal assigned as a whole and then in part -/

/-- Assign `r` to a signal, and then `v` to its bits from `i` up to `j`. -/
def overwriting (x : Signal) (r v : Expr) (i j : Nat) : List Stmt :=
  [.assign (.signal x) r, .assign (.slice (.signal x) i j) v]

/-- The number `y` of the signal's shape has the low bits of `V` from `i` up to `j`, and those of
`R`, cut to the signal's shape, elsewhere. -/
def Overwrites (x : Signal) (i j : Nat) (R V y : Int) : Prop :=
  x.shape.Holds y ∧
    Spliced (toBits (x.shape.wrap R) x.width) (toBits V (j - i)) x.width i j (toBits y x.width)

theorem overwrites_wrap_iff {x : Signal} {i j : Nat} {R V y : Int} :
    Overwrites x i j R V (x.shape.wrap y) ↔
      Spliced (toBits R x.width) (toBits V (j - i)) x.width i j (toBits y x.width) := by
  have cut : ∀ z, toBits (x.shape.wrap z) x.width = toBits z x.width := x.shape.toBits_wrap
  rw [Overwrites, cut, cut]
  exact and_iff_right (Shape.wrap_eq_self_iff.mp (x.shape.wrap_wrap y))

theorem folded_overwriting (x : Signal) (r v : Expr) (i j : Nat) :
    (folded (overwriting x r v i j)).get? x = some (Symbolic.splice r v i j) := by
  simp only [folded, overwriting, foldAll, fold, Symbolic.store, Symbolic.heldBy,
    Symbolic.held_insert, if_true, OrdMap.get?_insert]

/-- Folding stops where the new value has no sign to be extended with. -/
theorem stopsFolding_overwriting (x : Signal) (r v : Expr) (i j : Nat) :
    stopsFolding (overwriting x r v i j) = v.unfit (j - i) := by
  simp [stopsFolding, overwriting, overflowsAll, overflows, Symbolic.overflows]

theorem mem_assigned_overwriting (x : Signal) (r v : Expr) (i j : Nat) (y : Signal) :
    y ∈ assigned (overwriting x r v i j) ↔ y = x := by
  rw [← drivenBy_iff]
  simp [Frame.DrivenBy, overwriting, targetsOf, targets, Expr.drives]

variable {x : Signal} {r v : Expr} {i j : Nat} {σ : SimState} {R V : Int}

/-- A value that does not read the signal is not changed by storing into it. -/
theorem eval_seen_of_unread {e : Expr} {f : Frame} (unread : x ∉ e.mentions)
    (blocking : f.clocked = false) (others : ∀ y, y ≠ x → f.latest y = σ.value y) :
    e.eval f.seen = e.eval σ.value := by
  rw [Frame.seen_blocking blocking]
  exact e.eval_congr fun y hy => others y fun same => unread (same ▸ hy)

/-- A run changes the bits of the slice and no others. -/
theorem run_overwriting (order : i ≤ j) (inside : j ≤ x.width) (unread : x ∉ r.mentions)
    (unreadBy : x ∉ v.mentions) (first : r.eval σ.value = .ok R) (second : v.eval σ.value = .ok V) :
    ∃ f, (Frame.execAll (overwriting x r v i j)).run.run
        (Simulator.fresh σ (assigned (overwriting x r v i j))) = (.ok (), f) ∧
      Overwrites x i j R V (f.latest x) := by
  generalize started : Simulator.fresh σ (assigned (overwriting x r v i j)) = f
  have blocking : f.clocked = false := started ▸ rfl
  have others : ∀ y, y ≠ x → f.latest y = σ.value y := by
    intro y other
    rw [← started]
    exact Simulator.latest_fresh_of_not_mem fun driven =>
      other ((mem_assigned_overwriting x r v i j y).mp driven)
  have kept : ∀ y, y ≠ x → (f.stored x R).latest y = σ.value y := by
    intro y other
    rw [Frame.latest_stored, if_neg other, others y other]
  have held : (f.stored x R).holds (.signal x) = .ok (x.shape.wrap R) := by
    rw [Frame.holds, Frame.latest_stored, if_pos rfl]
  have whole : (Frame.exec (.assign (.signal x) r)).run.run f = (.ok (), f.stored x R) := by
    rw [Frame.run_exec_assign, eval_seen_of_unread unread blocking others, first]
    exact Frame.run_write_signal ..
  have part : (Frame.exec (.assign (.slice (.signal x) i j) v)).run.run (f.stored x R) =
      (.ok (), (f.stored x R).stored x (Frame.replaceField (toBits (x.shape.wrap R) x.width)
        (toBits V (j - i)) x.width i j : Nat)) := by
    rw [Frame.run_exec_assign,
      eval_seen_of_unread (f := f.stored x R) unreadBy blocking kept, second]
    dsimp only
    rw [Frame.run_write_slice, held]
    exact Frame.run_write_signal ..
  refine ⟨_, Frame.run_execAll_cons_ok.mpr ⟨_, whole,
    Frame.run_execAll_cons_ok.mpr ⟨_, part, Frame.run_execAll_nil _⟩⟩, ?_⟩
  have cut : toBits (x.shape.wrap R) x.width = toBits R x.width := x.shape.toBits_wrap R
  rw [Frame.latest_stored, if_pos rfl, overwrites_wrap_iff]
  intro k hk
  rw [toBits_ofNat, Nat.testBit_mod_two_pow, decide_eq_true hk, Bool.true_and, cut]
  exact Expr.spliced_replaceField (toBits_lt V (j - i)) order inside k hk

section Beyond

variable {E : Int} (order : i ≤ j) (inside : j ≤ x.width) (past : r.width < i)
  (wrapped : r.shape.wrap R = R)
  (fitted : (v.fit (j - i)).HasBits σ.value (j - i) (toBits V (j - i)))
  (value : (Symbolic.splice r v i j).eval σ.value = .ok E)
  (whole : (Symbolic.splice r v i j).shape.wrap E = E) (unsigned : 0 ≤ E)

include order inside past wrapped fitted value whole unsigned

/-- The lower part is as wide as it should be, and only its upper bits are in question. -/
theorem overwrites_iff_of_low {low : Nat} (lower : (r.extract 0 i).HasBits σ.value i low)
    (agrees : ∀ k < r.width, low.testBit k = (toBits R r.width).testBit k) :
    Overwrites x i j R V (x.shape.wrap E) ↔
      (∀ k, r.width ≤ k → k < i → low.testBit k = decide (R < 0)) ∧ (j < x.width → 0 ≤ R) := by
  obtain ⟨width, E', same, bits⟩ := Expr.splice_beyond_hasBits lower fitted order past
  cases value.symm.trans same
  rw [Nat.add_sub_cancel' order] at width bits
  rw [overwrites_wrap_iff]
  exact Expr.spliced_beyond_iff wrapped whole width unsigned lower.lt bits agrees past order inside

/-- Past the end of the first value, splicing is right exactly if the gap is filled and the zeros
above the slice are right. -/
theorem overwrites_beyond_iff (first : r.eval σ.value = .ok R) :
    Overwrites x i j R V (x.shape.wrap E) ↔
      GapFilled σ.value R V i j r ∧ (j < x.width → 0 ≤ R) := by
  cases r with
  | slice a start stop =>
    rw [Expr.eval] at first
    obtain ⟨A, inner, same⟩ := bind_eq_ok.mp first
    cases same
    have shorter : stop - start < i := past
    have own : toBits ((Expr.slice a start stop).shape.wrap (field (toBits A a.width) start stop))
        (Expr.slice a start stop).width = field (toBits A a.width) start stop :=
      (Shape.toBits_wrap ..).trans (toBits_of_lt (field_lt ..))
    rw [overwrites_iff_of_low order inside past wrapped fitted value whole unsigned
      (Expr.extract_slice_beyond inner past) ?_]
    · refine and_congr_left fun _ => ⟨fun gap A' again k above hk => ?_, fun gap k above hk => ?_⟩
      · cases inner.symm.trans again
        simpa [testBit_field, hk] using gap k above hk
      · simpa [testBit_field, hk] using gap A inner k above hk
    · intro k hk
      have within : k < stop - start := hk
      rw [own, testBit_field, testBit_field]
      simp [within, within.trans shorter]
  | concat ps =>
    rw [Expr.eval] at first
    obtain ⟨b, parts, same⟩ := bind_eq_ok.mp first
    cases same
    have lower := Expr.extract_concat_beyond parts past
    obtain ⟨width, E', same, bits⟩ := Expr.splice_beyond_hasBits lower fitted order past
    cases value.symm.trans same
    have natural : 0 ≤ (Expr.concat ps).shape.wrap b := Int.natCast_nonneg _
    have own : toBits ((Expr.concat ps).shape.wrap b) (Expr.concat ps).shape.width = b :=
      (Shape.toBits_wrap ..).trans (toBits_of_lt lower.lt)
    have moved : toBits E (Symbolic.splice (.concat ps) v i j).shape.width =
        toBits ((Expr.concat ps).shape.wrap b) (Expr.concat ps).shape.width |||
          toBits V (j - i) <<< (Expr.concat ps).shape.width := by
      rw [own]
      exact (congrArg (toBits E) width).trans bits
    rw [overwrites_wrap_iff]
    refine (Expr.spliced_moved_iff wrapped whole width natural unsigned fitted.lt moved past order
      inside).trans ?_
    exact ⟨fun none => ⟨none, fun _ => natural⟩, fun h => h.1⟩
  | literal | signal | ref | unary | binary | replicate | mux =>
    rw [overwrites_iff_of_low order inside past wrapped fitted value whole unsigned
      (Expr.extract_plain_beyond first past (by simp) (by simp)) (fun _ _ => rfl)]
    refine and_congr_left fun _ => ⟨fun gap => ?_, fun natural k above _ => ?_⟩
    · have bit := gap _ (Nat.le_refl _) past
      rw [testBit_eq_false_of_lt (toBits_lt R _) (Nat.le_refl _)] at bit
      exact Int.not_lt.mp (of_decide_eq_false bit.symm)
    · rw [testBit_eq_false_of_lt (toBits_lt R _) above, decide_eq_false (Int.not_lt.mpr natural)]

end Beyond

namespace Sample

/-- Six signed bits to cut a value from. -/
def level : Signal := ⟨⟨0⟩, "level", .signedOf 6, 0, false⟩

def frame : Signal := ⟨⟨1⟩, "frame", .unsigned 5, 0, false⟩

def lowered : SimState := .ofList [(level, -3)]

end Sample

open Sample

namespace Sample

/-- Set four bits to one signed bit, and then clear the third of them. -/
def dented : List Stmt :=
  overwriting ⟨⟨0⟩, "x", .unsigned 4, 0, false⟩ (.sized (-1) (.signedOf 1)) (.int 0) 2 3

end Sample

end Stmt

end Gateware
