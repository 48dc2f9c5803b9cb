import Gateware.Expr.Build
import Gateware.Proofs.Statements

/-!
# Shapes under resolution

Putting signals of one bit in place of references keeps the shape of every node, with one exception.
A left shift by the reset of a domain without one becomes a shift by a literal, which adds no bit
where the reference added one.
-/
namespace Gateware.Expr

/-! ### Nodes -/

theorem mem_nodes_self (e : Expr) : e ∈ e.nodes := by
  cases e <;> simp [nodes]

theorem nodes_subset {n : Expr} (e : Expr) (h : n ∈ e.nodes) : n.nodes ⊆ e.nodes := by
  induction e with
  | literal | signal | ref =>
    obtain rfl := List.mem_singleton.mp h
    exact List.Subset.refl _
  | unary _ _ ih | slice _ _ _ ih | replicate _ _ ih =>
    rcases List.mem_cons.mp h with rfl | below
    · exact List.Subset.refl _
    · exact List.subset_cons_of_subset _ (ih below)
  | binary | concat | mux =>
    rcases List.mem_cons.mp h with rfl | below
    · exact List.Subset.refl _
    · refine List.subset_cons_of_subset _ fun m hm => ?_
      simp only [nodesOf_eq, List.mem_append, List.mem_flatMap] at below ⊢
      grind

theorem mem_refs_of_node {r : DomainRef} (e : Expr) (h : .ref r ∈ e.nodes) : r ∈ e.refs := by
  induction e with
  | literal | signal => simp [nodes] at h
  | ref q => simpa [nodes, refs] using h
  | _ =>
    simp only [nodes, nodesOf_eq, List.mem_cons, List.mem_append, List.mem_flatMap, reduceCtorEq,
      false_or] at h
    simp only [refs, refsOf_eq, List.mem_append, List.mem_flatMap]
    grind

/-! ### Leaves in place of references -/

/-- References stand for signals or zeros, of one unsigned bit each. -/
structure BindsBits (f : DomainRef → Expr) : Prop where
  leaf : ∀ r, (∃ s, f r = .signal s) ∨ ∃ c, f r = .literal c ∧ c.value = 0
  shape : ∀ r, (f r).shape = .unsigned 1

variable {f : DomainRef → Expr}

theorem BindsBits.nodes_eq (binds : BindsBits f) (r : DomainRef) : (f r).nodes = [f r] := by
  rcases binds.leaf r with ⟨s, h⟩ | ⟨c, h, -⟩ <;> rw [h] <;> rfl

theorem nodes_bindRefs (binds : BindsBits f) (e : Expr) :
    (e.bindRefs f).nodes = e.nodes.map (bindRefs f) := by
  induction e with
  | literal | signal => rfl
  | ref r => exact binds.nodes_eq r
  | concat ps ih | mux _ ps _ ih =>
    simp only [bindRefs, nodes, nodesOf_eq, bindRefsOf_eq_map, List.flatMap_map, List.map_cons,
      List.map_append, List.map_flatMap, List.flatMap_congr ih, *]
  | _ => simp only [bindRefs, nodes, List.map_cons, List.map_append, *]

/-- A left shift, of less than the largest width, by a reference that stands for a literal. -/
def Narrows (f : DomainRef → Expr) (n : Expr) : Prop :=
  ∃ a r, n = .binary .shl a (.ref r) ∧ (f r).literal?.isSome = true ∧ a.width < maxWidth

theorem saturate_succ {w : Nat} : saturate w = saturate (w + 1) ↔ maxWidth ≤ w := by
  simp only [saturate]
  omega

/-- What an operation's shape is before and after, given that the operands keep theirs. -/
theorem binary_shape_bindRefs_iff (binds : BindsBits f) (op : BinaryOp) (a b : Expr) :
    op.shape a.shape b.shape (b.bindRefs f).literal? = op.shape a.shape b.shape b.literal? ↔
      ¬ Narrows f (.binary op a b) := by
  by_cases isRef : ∃ r, b = .ref r
  · obtain ⟨r, rfl⟩ := isRef
    cases op with
    | shl =>
      have narrows : Narrows f (.binary .shl a (.ref r)) ↔
          (f r).literal?.isSome = true ∧ a.width < maxWidth := by
        constructor
        · rintro ⟨_, _, same, h⟩
          cases same
          exact h
        · exact fun h => ⟨a, r, rfl, h⟩
      rw [narrows]
      rcases binds.leaf r with ⟨s, h⟩ | ⟨c, h, zero⟩
      · simp [bindRefs, h, literal?]
      · -- The reference adds one bit, the literal zero none.
        have before : BinaryOp.shl.shape a.shape (.unsigned 1) none =
            ⟨saturate (a.width + 1), a.shape.signed⟩ := rfl
        have after : BinaryOp.shl.shape a.shape (.unsigned 1) (some c) =
            ⟨saturate a.width, a.shape.signed⟩ := by
          simp [BinaryOp.shape, Shape.growth, zero, saturate, width]
        simp only [bindRefs, h, literal?, shape, before, after, Shape.mk.injEq, and_true,
          saturate_succ, Option.isSome_some, true_and, Nat.not_lt]
    | shr =>
      have apart : ¬ Narrows f (.binary .shr a (.ref r)) := by
        rintro ⟨_, _, same, _⟩
        cases same
      rcases binds.leaf r with ⟨s, h⟩ | ⟨c, h, -⟩ <;>
        simp [bindRefs, h, literal?, apart, BinaryOp.shape, Shape.slack, shape, Shape.unsigned]
    | _ =>
      refine iff_of_true rfl ?_
      rintro ⟨_, _, same, _⟩
      cases same
  · have same : (b.bindRefs f).literal? = b.literal? := by
      cases b with
      | ref r => exact absurd ⟨r, rfl⟩ isRef
      | _ => rfl
    refine iff_of_true (by rw [same]) ?_
    rintro ⟨_, r, same, _⟩
    cases same
    exact isRef ⟨r, rfl⟩

theorem shape_bindRefs (binds : BindsBits f) (e : Expr) (wide : ∀ n ∈ e.nodes, ¬ Narrows f n) :
    (e.bindRefs f).shape = e.shape := by
  induction e with
  | literal | signal => rfl
  | ref r => exact binds.shape r
  | unary _ _ ih | slice _ _ _ ih | replicate _ _ ih =>
    simp only [bindRefs, shape, ih fun n hn => wide n (.tail _ hn)]
  | binary op a b ia ib =>
    have left := ia fun n hn => wide n (.tail _ (List.mem_append_left _ hn))
    have right := ib fun n hn => wide n (.tail _ (List.mem_append_right _ hn))
    simp only [bindRefs, shape, left, right]
    exact (binary_shape_bindRefs_iff binds op a b).mpr (wide _ (.head _))
  | concat ps ih | mux _ ps _ ih =>
    have parts : ps.map (fun p => (p.bindRefs f).shape) = ps.map shape := by
      refine List.map_congr_left fun p hp => ih p hp fun n hn => wide n ?_
      simp only [nodes, nodesOf_eq, List.mem_cons, List.mem_append, List.mem_flatMap]
      grind
    simp only [bindRefs, shape, shapes_eq_map, bindRefsOf_eq_map, List.map_map, Function.comp_def,
      parts]

/-- All nodes keep their shapes exactly if no shift loses its bit. -/
theorem node_shapes_bindRefs_iff (binds : BindsBits f) (e : Expr) :
    (e.bindRefs f).nodes.map shape = e.nodes.map shape ↔ ∀ n ∈ e.nodes, ¬ Narrows f n := by
  have pointwise : (e.bindRefs f).nodes.map shape = e.nodes.map shape ↔
      ∀ n ∈ e.nodes, (n.bindRefs f).shape = n.shape := by
    rw [nodes_bindRefs binds, List.map_map, List.map_inj_left]
    rfl
  rw [pointwise]
  constructor
  · rintro same _ hn ⟨a, r, rfl, absent, room⟩
    have kept := same _ hn
    have left := same a (nodes_subset e hn (.tail _ (List.mem_append_left _ a.mem_nodes_self)))
    have right := binds.shape r
    simp only [bindRefs, shape, left, right] at kept
    exact (binary_shape_bindRefs_iff binds .shl a (.ref r)).mp kept ⟨a, r, rfl, absent, room⟩
  · intro wide n hn
    exact shape_bindRefs binds n fun m hm => wide m (nodes_subset e hn hm)

/-- The checked constructor accepts the bounds of a slice; other nodes have none. -/
def InBounds : Expr → Prop
  | .slice a start stop => (a.slice? start stop).isOk = true
  | _ => True

instance decidableInBounds : (e : Expr) → Decidable e.InBounds
  | .slice a start stop => inferInstanceAs (Decidable ((a.slice? start stop).isOk = true))
  | .literal _ | .signal _ | .ref _ | .unary .. | .binary .. | .concat _ | .replicate ..
  | .mux .. => isTrue trivial

theorem inBounds_slice {a : Expr} {start stop : Nat} :
    InBounds (.slice a start stop) ↔ start < stop ∧ stop ≤ a.width := by
  simp only [InBounds, slice?]
  split
  next within => simp [Except.isOk, Except.toBool, within]
  next outside => simp [Except.isOk, Except.toBool, outside]

theorem inBounds_bindRefs (binds : BindsBits f) {e : Expr}
    (wide : ∀ n ∈ e.nodes, ¬ Narrows f n) (fits : ∀ n ∈ e.nodes, n.InBounds) :
    ∀ n ∈ (e.bindRefs f).nodes, n.InBounds := by
  rw [nodes_bindRefs binds]
  intro n' hn'
  obtain ⟨n, hn, rfl⟩ := List.mem_map.mp hn'
  cases n with
  | slice a start stop =>
    have kept : (a.bindRefs f).width = a.width := by
      rw [width, shape_bindRefs binds a fun m hm => wide m (nodes_subset e hn (.tail _ hm)), width]
    rw [bindRefs, inBounds_slice, kept, ← inBounds_slice]
    exact fits _ hn
  | ref r => rcases binds.leaf r with ⟨s, h⟩ | ⟨c, h, -⟩ <;> rw [bindRefs, h] <;> trivial
  | _ => trivial

/-! ### Domains -/

/-- Clocks and resets of one unsigned bit. -/
def BitDomains (domains : List ClockDomain) : Prop :=
  ∀ d ∈ domains, ∀ s ∈ d.signals, s.shape = .unsigned 1

instance decidableBitDomains (domains : List ClockDomain) : Decidable (BitDomains domains) := by
  unfold BitDomains; infer_instance

/-- A left shift, of less than the largest width, by the reset of a domain without one. -/
def ShiftsByAbsentReset (domains : List ClockDomain) (n : Expr) : Prop :=
  ∃ a d cd, n = .binary .shl a (.ref (.reset d true)) ∧
    domains.find? (·.name = d) = some cd ∧ cd.rst = none ∧ a.width < maxWidth

variable {domains : List ClockDomain}

/-- What resolution puts in place of a reference. -/
def standsFor (domains : List ClockDomain) (r : DomainRef) : Expr :=
  match r.resolve domains with
  | .ok e => e
  | .error _ => .sized 0 (.unsigned 1)

theorem shape_of_resolve (bits : BitDomains domains) {r : DomainRef} {s : Signal}
    (h : r.resolve domains = .ok (.signal s)) : s.shape = .unsigned 1 := by
  cases r with
  | clock d =>
    simp only [DomainRef.resolve] at h
    split at h
    next cd found =>
      cases h
      exact bits cd (List.mem_of_find?_eq_some found) _ (.head _)
    next => cases h
  | reset d orZero =>
    simp only [DomainRef.resolve] at h
    split at h
    next => cases h
    next cd found =>
      split at h
      next rst present =>
        cases h
        exact bits cd (List.mem_of_find?_eq_some found) _ (by simp [ClockDomain.signals, present])
      next => split at h <;> cases h

theorem bindsBits_standsFor (bits : BitDomains domains) : BindsBits (standsFor domains) := by
  have each : ∀ r, (∃ s, standsFor domains r = .signal s ∧ s.shape = .unsigned 1) ∨
      standsFor domains r = .sized 0 (.unsigned 1) := by
    intro r
    cases h : r.resolve domains with
    | error fault => exact .inr (by rw [standsFor, h])
    | ok e =>
      rcases DomainRef.resolve_ok h with ⟨s, rfl⟩ | rfl
      · exact .inl ⟨s, by rw [standsFor, h], shape_of_resolve bits h⟩
      · exact .inr (by rw [standsFor, h])
  constructor
  · intro r
    exact (each r).imp (fun ⟨s, h, _⟩ => ⟨s, h⟩) fun h => ⟨_, h, rfl⟩
  · intro r
    rcases each r with ⟨s, h, shape⟩ | h
    · rw [h]
      exact shape
    · rw [h]
      rfl

/-- A reference that stands for something stands for a literal only if it may, at a missing
reset. -/
theorem literal?_standsFor_iff {r : DomainRef} (known : r.fault? domains = none) :
    (standsFor domains r).literal?.isSome = true ↔
      ∃ d cd, r = .reset d true ∧ domains.find? (·.name = d) = some cd ∧ cd.rst = none := by
  cases r with
  | clock d =>
    simp only [DomainRef.fault?, DomainRef.resolve, standsFor] at known ⊢
    cases h : domains.find? (·.name = d) with
    | none => simp [h] at known
    | some cd => simp [literal?]
  | reset d orZero =>
    simp only [DomainRef.fault?, DomainRef.resolve, standsFor] at known ⊢
    cases h : domains.find? (·.name = d) with
    | none => simp [h] at known
    | some cd =>
      cases hr : cd.rst with
      | some rst =>
        refine iff_of_false (by simp [hr, literal?]) ?_
        rintro ⟨_, cd', same, found, absent⟩
        cases same
        cases h.symm.trans found
        cases hr.symm.trans absent
      | none =>
        cases orZero with
        | true => exact iff_of_true (by simp [hr, literal?, sized]) ⟨d, cd, rfl, h, hr⟩
        | false => simp [h, hr] at known

theorem narrows_standsFor_iff {e n : Expr} (known : dangling? domains [e] = none)
    (hn : n ∈ e.nodes) :
    Narrows (standsFor domains) n ↔ ShiftsByAbsentReset domains n := by
  have sound : ∀ {a r}, n = .binary .shl a (.ref r) → r.fault? domains = none := by
    rintro a r rfl
    have below : .ref r ∈ e.nodes := nodes_subset e hn (.tail _ (List.mem_append_right _ (.head _)))
    have none := List.findSome?_eq_none_iff.mp known r (by simpa using mem_refs_of_node e below)
    simpa using none
  constructor
  · rintro ⟨a, r, same, absent, room⟩
    obtain ⟨d, cd, rfl, found, missing⟩ := (literal?_standsFor_iff (sound same)).mp absent
    exact ⟨a, d, cd, same, found, missing, room⟩
  · rintro ⟨a, d, cd, same, found, missing, room⟩
    exact ⟨a, _, same, (literal?_standsFor_iff (sound same)).mpr ⟨d, cd, rfl, found, missing⟩, room⟩

/-- Where every reference stands for something, resolution keeps the shapes of all nodes exactly if
nothing is shifted left by a missing reset, and slices within bounds stay within bounds then. -/
theorem resolved_shapes_iff (domains : List ClockDomain) (bits : BitDomains domains) (e : Expr)
    (known : dangling? domains [e] = none) :
    ((e.resolved domains).nodes.map shape = e.nodes.map shape ↔
      ∀ n ∈ e.nodes, ¬ ShiftsByAbsentReset domains n) ∧
    ((∀ n ∈ e.nodes, ¬ ShiftsByAbsentReset domains n) → (∀ n ∈ e.nodes, n.InBounds) →
      ∀ n ∈ (e.resolved domains).nodes, n.InBounds) := by
  have binds := bindsBits_standsFor bits
  have resolved : e.resolved domains = e.bindRefs (standsFor domains) := rfl
  have narrows : (∀ n ∈ e.nodes, ¬ Narrows (standsFor domains) n) ↔
      ∀ n ∈ e.nodes, ¬ ShiftsByAbsentReset domains n :=
    forall₂_congr fun n hn => not_congr (narrows_standsFor_iff known hn)
  rw [resolved, ← narrows]
  exact ⟨node_shapes_bindRefs_iff binds e, fun wide fits => inBounds_bindRefs binds wide fits⟩

/-! ### A shift by a missing reset -/

/-- A domain whose reset is the given signal, if any. -/
def domainWith (rst : Option Signal) : ClockDomain where
  name := "por"
  clk := ⟨⟨0⟩, "por_clk", .unsigned 1, 0, false⟩
  rst := rst
  asyncReset := false

/-- The top bit of a shifted number beside a flag. -/
def flagged : Expr :=
  .slice (.concat [
    .binary .shl (.signal ⟨⟨2⟩, "a", .unsigned 4, 0, false⟩) (.ref (.reset "por" true)),
    .signal ⟨⟨3⟩, "b", .unsigned 1, 0, false⟩]) 5 6

/-- With a reset everything stays in place. -/
theorem flagged_resolved :
    ∃ domains, BitDomains domains ∧ dangling? domains [flagged] = none ∧
      (∀ n ∈ flagged.nodes, ¬ ShiftsByAbsentReset domains n) ∧ (∀ n ∈ flagged.nodes, n.InBounds) ∧
      ∀ n ∈ (flagged.resolved domains).nodes, n.InBounds := by
  let domains := [domainWith (some ⟨⟨1⟩, "por_rst", .unsigned 1, 0, false⟩)]
  have fits : ∀ n ∈ flagged.nodes, n.InBounds := by decide
  obtain ⟨iff, keeps⟩ := resolved_shapes_iff domains (by decide) flagged (by decide)
  have wide := iff.mp (by decide)
  exact ⟨domains, by decide, by decide, wide, fits, keeps wide fits⟩

/-- Without a reset the number is a bit narrower, and the slice reaches past the end. -/
theorem resolved_narrower :
    ∃ domains e, BitDomains domains ∧ dangling? domains [e] = none ∧ (∀ n ∈ e.nodes, n.InBounds) ∧
      (e.resolved domains).nodes.map shape ≠ e.nodes.map shape ∧
      ∃ n ∈ (e.resolved domains).nodes, ¬ n.InBounds :=
  ⟨[domainWith none], flagged, by decide, by decide, by decide, by decide, by decide⟩

end Gateware.Expr
