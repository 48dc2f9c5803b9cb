import Gateware.Netlist.Drivers
import Gateware.Proofs.Statements

/-!
# One driver for every signal

What an accepted netlist looks like: all targets can be driven, and no signal is driven by two of
the combinational statements, the statements of a clock domain, and the cells.
-/
namespace Gateware

namespace Netlist

variable {who : Driver} {owners after : OrdMap Signal Driver}

theorem claim_ok {s : Signal} (h : claim who owners s = .ok after) :
    (owners.get? s = none ∨ owners.get? s = some who ∧ who.shares = true) ∧
      ∀ t, after.get? t = if t = s then some who else owners.get? t := by
  unfold claim at h
  cases found : owners.get? s with
  | none =>
    rw [found] at h
    cases h
    exact ⟨.inl rfl, fun t => OrdMap.get?_insert ..⟩
  | some first =>
    simp only [found] at h
    split at h
    next same =>
      cases h
      obtain ⟨rfl, shares⟩ := same
      refine ⟨.inr ⟨rfl, shares⟩, fun t => ?_⟩
      by_cases own : t = s
      · rw [if_pos own, own, found]
      · rw [if_neg own]
    next => cases h

/-- Entering a driver for signals succeeds only if each of them had none, or may share it. -/
theorem claims_ok {xs : List Signal} (h : xs.foldlM (claim who) owners = .ok after) :
    (∀ s ∈ xs, owners.get? s = none ∨ owners.get? s = some who ∧ who.shares = true) ∧
      ∀ t, after.get? t = if t ∈ xs then some who else owners.get? t := by
  induction xs generalizing owners with
  | nil =>
    cases h
    simp
  | cons x xs ih =>
    rw [List.foldlM_cons] at h
    obtain ⟨next, first, rest⟩ := bind_eq_ok.mp h
    obtain ⟨free, entered⟩ := claim_ok first
    obtain ⟨free', entered'⟩ := ih rest
    refine ⟨fun s hs => ?_, fun t => ?_⟩
    · rcases List.mem_cons.mp hs with rfl | hs
      · exact free
      · by_cases same : s = x
        · exact same ▸ free
        · have old := free' s hs
          rwa [entered, if_neg same] at old
    · rw [entered', entered]
      by_cases later : t ∈ xs
      · simp [later]
      · by_cases same : t = x <;> simp [later, same]

theorem claimStmts_ok {ss : List Stmt} (h : claimStmts who owners ss = .ok after) :
    (∀ t ∈ Stmt.targetsOf ss, t.isTarget = true) ∧
      (Stmt.assigned ss).toList.foldlM (claim who) owners = .ok after := by
  unfold claimStmts at h
  cases fault : Stmt.targetFault? ss with
  | some f =>
    rw [fault] at h
    cases h
  | none =>
    rw [fault] at h
    exact ⟨Stmt.targetFault?_eq_none_iff.mp fault, h⟩

/-- Clocked statements only drive what nobody else does. -/
theorem claimSync_ok {es : List (String × List Stmt)}
    (h : es.foldlM (fun o e => claimStmts (.sync e.1) o e.2) owners = .ok after) :
    (∀ e ∈ es, ∀ t ∈ Stmt.targetsOf e.2, t.isTarget = true) ∧
    (∀ e ∈ es, ∀ s ∈ Stmt.assigned e.2, owners.get? s = none ∨
      ∃ domain, owners.get? s = some (.sync domain)) ∧
    (∀ e ∈ es, ∀ s ∈ Stmt.assigned e.2, after.get? s ≠ none) ∧
    ∀ s, owners.get? s ≠ none → after.get? s = owners.get? s := by
  induction es generalizing owners with
  | nil =>
    cases h
    simp
  | cons e es ih =>
    rw [List.foldlM_cons] at h
    obtain ⟨next, first, rest⟩ := bind_eq_ok.mp h
    obtain ⟨targets, entered⟩ := claimStmts_ok first
    obtain ⟨free, entered⟩ := claims_ok entered
    obtain ⟨targets', free', present, kept⟩ := ih rest
    have keeps : ∀ s, owners.get? s ≠ none → next.get? s = owners.get? s := by
      intro s some
      rw [entered]
      split
      next mine =>
        rcases free s mine with none | ⟨same, -⟩
        · exact absurd none some
        · exact same.symm
      next => rfl
    refine ⟨fun e' he' => ?_, fun e' he' s hs => ?_, fun e' he' s hs => ?_, fun s some => ?_⟩
    · rcases List.mem_cons.mp he' with rfl | he'
      · exact targets
      · exact targets' e' he'
    · rcases List.mem_cons.mp he' with rfl | he'
      · exact (free s hs).imp id fun h => ⟨_, h.1⟩
      · by_cases old : owners.get? s = none
        · exact .inl old
        · have later := free' e' he' s hs
          rw [keeps s old] at later
          exact later
    · rcases List.mem_cons.mp he' with rfl | he'
      · have mine : next.get? s ≠ none := by
          rw [entered, if_pos (OrdSet.mem_toList.mpr hs)]
          simp
        rw [kept s mine]
        exact mine
      · exact present e' he' s hs
    · rw [kept s (by rw [keeps s some]; exact some), keeps s some]

/-- Cells share no signal, neither with each other nor with what is entered before. -/
theorem claimCells_ok {cs : List Cell}
    (h : cs.foldlM (fun o c => (cellTargets c).toList.foldlM (claim (.cell c.describe)) o) owners =
      .ok after) :
    cs.Pairwise (fun c d => ∀ s ∈ cellTargets c, s ∉ cellTargets d) ∧
      ∀ c ∈ cs, ∀ s ∈ cellTargets c, owners.get? s = none := by
  induction cs generalizing owners with
  | nil => simp
  | cons c cs ih =>
    rw [List.foldlM_cons] at h
    obtain ⟨next, first, rest⟩ := bind_eq_ok.mp h
    obtain ⟨free, entered⟩ := claims_ok first
    obtain ⟨apart, unclaimed⟩ := ih rest
    have alone : ∀ d ∈ cs, ∀ s ∈ cellTargets d, s ∉ cellTargets c ∧ owners.get? s = none := by
      intro d hd s hs
      have none := unclaimed d hd s hs
      rw [entered] at none
      split at none
      next => cases none
      next other => exact ⟨other, none⟩
    refine ⟨List.pairwise_cons.mpr ⟨fun d hd s mine other => ?_, apart⟩, fun d hd s hs => ?_⟩
    · exact (alone d hd s other).1 mine
    · rcases List.mem_cons.mp hd with rfl | hd
      · -- A cell shares its signals with nobody.
        exact (free s hs).resolve_right fun h => Bool.noConfusion h.2
      · exact (alone d hd s hs).2

/-- No two drivers drive the same signal, and every target can be driven. -/
structure WellDriven (n : Netlist) : Prop where
  combTargets : ∀ t ∈ Stmt.targetsOf n.comb, t.isTarget = true
  syncTargets : ∀ e ∈ n.sync.entries, ∀ t ∈ Stmt.targetsOf e.2, t.isTarget = true
  syncComb : ∀ e ∈ n.sync.entries, ∀ s ∈ Stmt.assigned e.2, s ∉ Stmt.assigned n.comb
  cellComb : ∀ c ∈ n.cells.values, ∀ s ∈ cellTargets c, s ∉ Stmt.assigned n.comb
  cellSync : ∀ c ∈ n.cells.values, ∀ s ∈ cellTargets c, ∀ e ∈ n.sync.entries,
    s ∉ Stmt.assigned e.2
  cells : n.cells.values.Pairwise fun c d => ∀ s ∈ cellTargets c, s ∉ cellTargets d

theorem wellDriven_of_check {n : Netlist} (h : n.checkDrivers = .ok ()) : n.WellDriven := by
  unfold checkDrivers at h
  cases found : n.drivers with
  | error f =>
    rw [found] at h
    cases h
  | ok owners =>
    obtain ⟨byComb, comb, found⟩ := bind_eq_ok.mp found
    obtain ⟨bySync, sync, cells⟩ := bind_eq_ok.mp found
    obtain ⟨targets, comb⟩ := claimStmts_ok comb
    obtain ⟨-, comb⟩ := claims_ok comb
    obtain ⟨targets', free, present, kept⟩ := claimSync_ok sync
    obtain ⟨apart, unclaimed⟩ := claimCells_ok cells
    have owned : ∀ s ∈ Stmt.assigned n.comb, byComb.get? s = some .comb := by
      intro s hs
      rw [comb, if_pos (OrdSet.mem_toList.mpr hs)]
    refine ⟨targets, targets', fun e he s hs mine => ?_, fun c hc s hs mine => ?_,
      fun c hc s hs e he other => ?_, apart⟩
    · rcases free e he s hs with none | ⟨domain, other⟩
      · rw [owned s mine] at none
        cases none
      · rw [owned s mine] at other
        cases other
    · have none := unclaimed c hc s hs
      rw [kept s (by rw [owned s mine]; simp), owned s mine] at none
      cases none
    · exact present e he s other (unclaimed c hc s hs)

end Netlist

end Gateware
