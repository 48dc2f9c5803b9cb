import Gateware.Proofs.Arithmetic
import Gateware.Proofs.Resolution

/-!
# Resolution makes no value wider

Where resolution changes the shape of an expression, the new shape has the same sign and fewer bits.
So a value of the resolved expression fits the shape that the expression had before.

## Main results

`Expr.resolved_within`: the shape of a resolved expression is within that of the expression, if the
references in it stand for bits.
-/
namespace Gateware

namespace Shape

/-- The second shape has the sign of the first and no fewer bits. -/
def Within (s t : Shape) : Prop := s.signed = t.signed ∧ s.width ≤ t.width

theorem Within.refl (s : Shape) : s.Within s := ⟨rfl, Nat.le_refl _⟩

theorem Within.trans {s t u : Shape} (first : s.Within t) (second : t.Within u) : s.Within u :=
  ⟨first.1.trans second.1, Nat.le_trans first.2 second.2⟩

theorem Within.holds {s t : Shape} (h : s.Within t) {v : Int} (hs : s.Holds v) : t.Holds v := by
  obtain ⟨w, signed⟩ := s
  obtain ⟨w', signed'⟩ := t
  obtain ⟨rfl, wider⟩ : signed = signed' ∧ w ≤ w' := h
  exact hs.mono wider

theorem saturate_mono {k l : Nat} (le : k ≤ l) : saturate k ≤ saturate l := by
  unfold saturate
  omega

theorem powWidth_mono {k l : Nat} (le : k ≤ l) : powWidth k ≤ powWidth l := by
  have grows : ∀ {l : Nat}, k ≤ l → 1 <<< k ≤ 1 <<< l := by
    intro l le
    rw [Nat.one_shiftLeft, Nat.one_shiftLeft]
    exact Nat.pow_le_pow_right (by decide) le
  unfold powWidth
  split <;> split
  next => exact grows le
  next small _ => exact Nat.le_trans (grows (Nat.le_of_lt_succ small)) (by decide)
  next => omega
  next => exact Nat.le_refl _

variable {a a' b b' : Shape} (ha : a.Within a') (hb : b.Within b')

include ha hb

theorem Within.aligned :
    (a.aligned b).1 ≤ (a'.aligned b').1 ∧ (a.aligned b).2 ≤ (a'.aligned b').2 := by
  obtain ⟨w, signed⟩ := a
  obtain ⟨w', signed'⟩ := a'
  obtain ⟨u, sign⟩ := b
  obtain ⟨u', sign'⟩ := b'
  obtain ⟨rfl, wider⟩ : signed = signed' ∧ w ≤ w' := ha
  obtain ⟨rfl, longer⟩ : sign = sign' ∧ u ≤ u' := hb
  have first := saturate_mono (Nat.succ_le_succ wider)
  have second := saturate_mono (Nat.succ_le_succ longer)
  cases signed <;> cases sign
  · exact ⟨wider, longer⟩
  · exact ⟨first, longer⟩
  · exact ⟨wider, second⟩
  · exact ⟨wider, longer⟩

omit ha in
theorem Within.growth (amount : Option Literal) : b.growth amount ≤ b'.growth amount := by
  obtain ⟨sign, longer⟩ := hb
  cases amount with
  | some c => exact Nat.le_refl _
  | none =>
    have whole := powWidth_mono longer
    have half := powWidth_mono (Nat.sub_le_sub_right longer 1)
    simp only [Shape.growth, sign]
    split <;> omega

omit ha in
theorem Within.slack (amount : Option Literal) : b.slack amount ≤ b'.slack amount := by
  obtain ⟨sign, longer⟩ := hb
  cases amount with
  | some c => exact Nat.le_refl _
  | none =>
    have half := powWidth_mono (Nat.sub_le_sub_right longer 1)
    simp only [Shape.slack, sign]
    split
    · exact half
    · exact Nat.le_refl _

/-- Wider operands make wider results. -/
theorem Within.binary (op : BinaryOp) (amount : Option Literal) :
    (op.shape a b amount).Within (op.shape a' b' amount) := by
  have larger := Within.aligned ha hb
  cases op with
  | add | sub =>
    exact ⟨by simp only [BinaryOp.shape, ha.1, hb.1],
      saturate_mono (Nat.succ_le_succ (max_le_max larger.1 larger.2))⟩
  | mul =>
    have sum := saturate_mono (Nat.add_le_add ha.2 hb.2)
    simp only [BinaryOp.shape, ha.1, hb.1]
    split
    · exact ⟨rfl, sum⟩
    · exact ⟨rfl, max_le_max (Nat.sub_le_sub_right sum 1) (Nat.le_refl 1)⟩
    · exact ⟨rfl, sum⟩
  | and | or | xor =>
    exact ⟨by simp only [BinaryOp.shape, ha.1, hb.1], max_le_max larger.1 larger.2⟩
  | shl => exact ⟨ha.1, saturate_mono (Nat.add_le_add ha.2 (Within.growth hb amount))⟩
  | shr => exact ⟨ha.1, saturate_mono (Nat.add_le_add ha.2 (Within.slack hb amount))⟩
  | eq | ne | lt | le | gt | ge => exact .refl _

omit hb in
theorem Within.unary (op : UnaryOp) : (op.shape a).Within (op.shape a') := by
  cases op with
  | invert => exact ha
  | neg =>
    simp only [UnaryOp.shape, ha.1]
    split
    · exact ha
    · exact ⟨rfl, saturate_mono (Nat.succ_le_succ ha.2)⟩

end Shape

namespace Expr

variable {f : DomainRef → Expr}

/-- A zero in place of a reference adds no bits to a shift. -/
theorem within_amount (zero : ∀ r c, f r = .literal c → c.value = 0) (op : BinaryOp) (a : Shape)
    (b : Expr) :
    (op.shape a b.shape (b.bindRefs f).literal?).Within (op.shape a b.shape b.literal?) := by
  by_cases isRef : ∃ r, b = .ref r
  · obtain ⟨r, rfl⟩ := isRef
    simp only [bindRefs]
    cases leaf : f r with
    | literal c =>
      have none : saturate c.value.toNat = 0 := by
        rw [zero r c leaf]
        rfl
      cases op with
      | shl => exact ⟨rfl, Shape.saturate_mono (by simp [literal?, Shape.growth, none])⟩
      | shr => exact ⟨rfl, Shape.saturate_mono (by simp [literal?, Shape.slack])⟩
      | _ => exact .refl _
    | _ => exact .refl _
  · have same : (b.bindRefs f).literal? = b.literal? := by
      cases b with
      | ref r => exact absurd ⟨r, rfl⟩ isRef
      | _ => rfl
    rw [same]
    exact .refl _

theorem foldr_width_mono {ss ts : List Shape} (h : List.Forall₂ Shape.Within ss ts) :
    ss.foldr (fun s w => s.width + w) 0 ≤ ts.foldr (fun s w => s.width + w) 0 := by
  induction h with
  | nil => exact Nat.le_refl _
  | cons head _ ih => exact Nat.add_le_add head.2 ih

theorem foldl_width_mono {ss ts : List Shape} (h : List.Forall₂ Shape.Within ss ts) {v w : Nat}
    (le : v ≤ w) :
    ss.foldl (fun w s => max w s.width) v ≤ ts.foldl (fun w s => max w s.width) w := by
  induction h generalizing v w with
  | nil => exact le
  | cons head _ ih => exact ih (max_le_max le head.2)

theorem any_signed_eq {ss ts : List Shape} (h : List.Forall₂ Shape.Within ss ts) :
    ss.any (·.signed) = ts.any (·.signed) := by
  induction h with
  | nil => rfl
  | cons head _ ih => rw [List.any_cons, List.any_cons, head.1, ih]

theorem within_parts {ps : List Expr} (h : ∀ p ∈ ps, (p.bindRefs f).shape.Within p.shape) :
    List.Forall₂ Shape.Within (shapes (bindRefsOf f ps)) (shapes ps) := by
  rw [shapes_eq_map, shapes_eq_map, bindRefsOf_eq_map, List.map_map, List.forall₂_map_left_iff,
    List.forall₂_map_right_iff, List.forall₂_same]
  exact h

/-- Bits in place of references make no value wider. -/
theorem bindRefs_within (zero : ∀ r c, f r = .literal c → c.value = 0) (e : Expr)
    (bits : ∀ r ∈ e.refs, (f r).shape = .unsigned 1) : (e.bindRefs f).shape.Within e.shape := by
  induction e with
  | literal | signal => exact .refl _
  | ref r =>
    rw [bindRefs, bits r (.head _)]
    exact .refl _
  | unary op _ ih => exact Shape.Within.unary (ih bits) op
  | binary op a b ia ib =>
    obtain ⟨left, right⟩ := List.forall_mem_append.mp bits
    have operands := Shape.Within.binary (ia left) (ib right) op (b.bindRefs f).literal?
    exact operands.trans (within_amount zero op a.shape b)
  | slice _ _ _ ih => exact ⟨(ih bits).1, Nat.le_refl _⟩
  | replicate _ n ih => exact ⟨rfl, Shape.saturate_mono (Nat.mul_le_mul_right n (ih bits).2)⟩
  | concat ps ih =>
    rw [refs, refsOf_eq, List.forall_mem_flatMap] at bits
    exact ⟨rfl, foldr_width_mono (within_parts fun p hp => ih p hp (bits p hp))⟩
  | mux s cs _ ih =>
    rw [refs, refsOf_eq, List.forall_mem_append, List.forall_mem_flatMap] at bits
    have choices := within_parts fun c hc => ih c hc (bits.2 c hc)
    exact ⟨any_signed_eq choices, foldl_width_mono choices (Nat.le_refl _)⟩

theorem resolved_within (domains : List ClockDomain) (e : Expr)
    (bits : ∀ r ∈ e.refs, (standsFor domains r).shape = .unsigned 1) :
    (e.resolved domains).shape.Within e.shape := by
  refine bindRefs_within (f := standsFor domains) (fun r c leaf => ?_) e bits
  unfold standsFor at leaf
  cases h : r.resolve domains with
  | error fault =>
    rw [h] at leaf
    cases leaf
    rfl
  | ok e =>
    rw [h] at leaf
    rcases DomainRef.resolve_ok h with ⟨s, rfl⟩ | rfl
    · cases leaf
    · cases leaf
      rfl

end Expr

end Gateware
