import Gateware.Proofs.Machine.Parts
import Gateware.Proofs.Performed

/-!
# Moves and loads as plain assignments

Writing moves and registered loads as assignments leaves the branches as they are, so performing
and rewriting can change places. What the rewritten statements leave in the new signals is told by
the last move and the last load for each register.
-/
namespace Gateware

namespace Stmt

section Replace

variable {ε : Type} {f : Stmt → Except ε (List Stmt)}

theorem replaceOf_cons {s : Stmt} {ss us : List Stmt} :
    replaceOf f (s :: ss) = .ok us ↔
      ∃ first rest, replace f s = .ok first ∧ replaceOf f ss = .ok rest ∧ us = first ++ rest := by
  simp only [replaceOf, bind_eq_ok, pure_eq_ok, exists_and_left]

theorem replaceOf_append {ss ts us : List Stmt} :
    replaceOf f (ss ++ ts) = .ok us ↔
      ∃ first rest, replaceOf f ss = .ok first ∧ replaceOf f ts = .ok rest ∧
        us = first ++ rest := by
  induction ss generalizing us with
  | nil => simp [replaceOf, pure, Except.pure]
  | cons s ss ih =>
    simp only [List.cons_append, replaceOf_cons, ih]
    constructor
    · rintro ⟨a, -, ha, ⟨b, c, hb, hc, rfl⟩, rfl⟩
      exact ⟨a ++ b, c, ⟨a, b, ha, hb, rfl⟩, hc, by rw [List.append_assoc]⟩
    · rintro ⟨-, c, ⟨a, b, ha, hb, rfl⟩, hc, rfl⟩
      exact ⟨a, b ++ c, ha, ⟨b, c, hb, hc, rfl⟩, by rw [List.append_assoc]⟩

theorem mem_replaceOf {ss us : List Stmt} (h : replaceOf f ss = .ok us) {s : Stmt} (hs : s ∈ ss) :
    ∃ ts, replace f s = .ok ts ∧ ts ⊆ us := by
  induction ss generalizing us with
  | nil => cases hs
  | cons t ss ih =>
    obtain ⟨first, rest, ht, hrest, rfl⟩ := replaceOf_cons.mp h
    rcases List.mem_cons.mp hs with rfl | hs
    · exact ⟨first, ht, List.subset_append_left ..⟩
    · obtain ⟨ts, hts, sub⟩ := ih hrest hs
      exact ⟨ts, hts, List.subset_append_of_subset_right _ sub⟩

theorem replace_branch {cond : Expr} {yes no us : List Stmt} :
    replace f (.branch cond yes no) = .ok us ↔
      ∃ yes' no', replaceOf f yes = .ok yes' ∧ replaceOf f no = .ok no' ∧
        f (.branch cond yes' no') = .ok us := by
  simp only [replace, bind_eq_ok, exists_and_left]

theorem replace_select {test : Expr} {arms : Arms} {us : List Stmt} :
    replace f (.select test arms) = .ok us ↔
      ∃ arms', replaceOfArms f arms = .ok arms' ∧ f (.select test arms') = .ok us := by
  simp only [replace, bind_eq_ok]

theorem replaceOfArms_otherwise {body : List Stmt} {arms : Arms} :
    replaceOfArms f (.otherwise body) = .ok arms ↔
      ∃ body', replaceOf f body = .ok body' ∧ arms = .otherwise body' := by
  simp only [replaceOfArms, bind_eq_ok, pure_eq_ok]

theorem replaceOfArms_arm {key : Literal} {body : List Stmt} {rest arms : Arms} :
    replaceOfArms f (.arm key body rest) = .ok arms ↔
      ∃ body' rest', replaceOf f body = .ok body' ∧ replaceOfArms f rest = .ok rest' ∧
        arms = .arm key body' rest' := by
  simp only [replaceOfArms, bind_eq_ok, pure_eq_ok, exists_and_left]

end Replace

mutual
theorem performed_subset {ρ : Valuation} (s : Stmt) {us : List Stmt} (h : performed ρ s = .ok us) :
    us ⊆ s.leaves := by
  match s with
  | .assign lhs rhs => cases h; exact fun _ => id
  | .branch cond yes no =>
    obtain ⟨v, -, taken⟩ := performed_branch.mp h
    by_cases zero : v = 0
    · rw [if_pos zero] at taken
      exact List.subset_append_of_subset_right _ (performedOf_subset no taken)
    · rw [if_neg zero] at taken
      exact List.subset_append_of_subset_left _ (performedOf_subset yes taken)
  | .select test arms =>
    obtain ⟨v, -, taken⟩ := performed_select.mp h
    exact performedOfArms_subset arms taken
  | .nextState s => cases h; exact fun _ => id
  | .nextValue target value => cases h; exact fun _ => id

theorem performedOf_subset {ρ : Valuation} (ss : List Stmt) {us : List Stmt}
    (h : performedOf ρ ss = .ok us) : us ⊆ leavesOf ss := by
  match ss with
  | [] => cases h; exact fun _ => id
  | s :: ss =>
    obtain ⟨first, rest, hs, hss, rfl⟩ := performedOf_cons.mp h
    exact List.append_subset.mpr
      ⟨List.subset_append_of_subset_left _ (performed_subset s hs),
        List.subset_append_of_subset_right _ (performedOf_subset ss hss)⟩

theorem performedOfArms_subset {ρ : Valuation} {shape : Shape} {v : Int} (arms : Arms)
    {us : List Stmt} (h : performedOfArms ρ shape v arms = .ok us) : us ⊆ leavesOfArms arms := by
  match arms with
  | .done => cases h; exact fun _ => id
  | .otherwise body => exact performedOf_subset body h
  | .arm key body rest =>
    rw [performedOfArms] at h
    split at h
    · exact List.subset_append_of_subset_left _ (performedOf_subset body h)
    · exact List.subset_append_of_subset_right _ (performedOfArms_subset rest h)
end

end Stmt

namespace Machine

section Plain

open Stmt

variable {m : Machine} {next : Signal} {loads : List Load} {ρ : Valuation}

theorem replace_leaf {s : Stmt} (leaf : s.isLeaf = true) :
    replace (m.plain next loads) s = m.plain next loads s := by
  cases s with
  | branch => cases leaf
  | select => cases leaf
  | _ => rw [replace]

/-- Leaves become assignments. -/
theorem plain_assigns {s : Stmt} (leaf : s.isLeaf = true) {us : List Stmt}
    (h : m.plain next loads s = .ok us) : ∀ u ∈ us, ∃ lhs rhs, u = .assign lhs rhs := by
  intro u hu
  cases s with
  | assign lhs rhs =>
    cases h
    exact ⟨lhs, rhs, List.mem_singleton.mp hu⟩
  | branch => cases leaf
  | select => cases leaf
  | nextState s =>
    rw [plain] at h
    split at h
    · cases h
      exact ⟨_, _, List.mem_singleton.mp hu⟩
    · cases h
  | nextValue target value =>
    rw [plain] at h
    split at h
    · cases h
      rcases List.mem_pair.mp hu with rfl | rfl
      · exact ⟨_, _, rfl⟩
      · exact ⟨_, _, rfl⟩
    · cases h
      cases hu

theorem performedOf_assigns {us : List Stmt} (h : ∀ u ∈ us, ∃ lhs rhs, u = .assign lhs rhs) :
    performedOf ρ us = .ok us := by
  induction us with
  | nil => rfl
  | cons u us ih =>
    obtain ⟨⟨lhs, rhs, rfl⟩, rest⟩ := List.forall_mem_cons.mp h
    exact performedOf_cons.mpr ⟨_, us, rfl, ih rest, rfl⟩

theorem leavesOf_assigns {us : List Stmt} (h : ∀ u ∈ us, ∃ lhs rhs, u = .assign lhs rhs) :
    leavesOf us = us := by
  induction us with
  | nil => rfl
  | cons u us ih =>
    obtain ⟨⟨lhs, rhs, rfl⟩, rest⟩ := List.forall_mem_cons.mp h
    rw [leavesOf, leaves, ih rest, List.singleton_append]

theorem replaceOf_leaf {s : Stmt} (leaf : s.isLeaf = true) {us : List Stmt} :
    replaceOf (m.plain next loads) [s] = .ok us ↔ m.plain next loads s = .ok us := by
  rw [replaceOf_cons, replace_leaf leaf]
  constructor
  · rintro ⟨first, rest, hs, nothing, rfl⟩
    cases nothing
    rwa [List.append_nil]
  · intro hs
    exact ⟨us, [], hs, rfl, us.append_nil.symm⟩

/-- What the assignments for a leaf perform are the assignments for what the leaf performs. -/
theorem performed_replace_leaf {s : Stmt} (leaf : s.isLeaf = true) {ts us : List Stmt}
    (h : replace (m.plain next loads) s = .ok ts) (reached : performedOf ρ ts = .ok us) :
    ∃ done, performed ρ s = .ok done ∧ replaceOf (m.plain next loads) done = .ok us := by
  rw [replace_leaf leaf] at h
  rw [performedOf_assigns (plain_assigns leaf h)] at reached
  cases reached
  refine ⟨[s], ?_, (replaceOf_leaf leaf).mpr h⟩
  cases s with
  | branch => cases leaf
  | select => cases leaf
  | _ => rfl

mutual
/-- Performing what was rewritten is rewriting what is performed. -/
theorem performed_replace (s : Stmt) {ts us : List Stmt}
    (h : replace (m.plain next loads) s = .ok ts) (reached : performedOf ρ ts = .ok us) :
    ∃ done, performed ρ s = .ok done ∧ replaceOf (m.plain next loads) done = .ok us := by
  match s with
  | .assign lhs rhs => exact performed_replace_leaf rfl h reached
  | .branch cond yes no =>
    obtain ⟨yes', no', hyes, hno, same⟩ := replace_branch.mp h
    cases same
    -- The condition is not rewritten, so both lists go the same way.
    obtain ⟨v, value, taken⟩ := performed_branch.mp (performedOf_singleton.mp reached)
    by_cases zero : v = 0
    · rw [if_pos zero] at taken
      obtain ⟨done, performs, rewrites⟩ := performedOf_replaceOf no hno taken
      exact ⟨done, performed_branch.mpr ⟨v, value, by rwa [if_pos zero]⟩, rewrites⟩
    · rw [if_neg zero] at taken
      obtain ⟨done, performs, rewrites⟩ := performedOf_replaceOf yes hyes taken
      exact ⟨done, performed_branch.mpr ⟨v, value, by rwa [if_neg zero]⟩, rewrites⟩
  | .select test arms =>
    obtain ⟨arms', harms, same⟩ := replace_select.mp h
    cases same
    obtain ⟨v, value, taken⟩ := performed_select.mp (performedOf_singleton.mp reached)
    obtain ⟨done, performs, rewrites⟩ := performedOfArms_replaceOfArms arms harms taken
    exact ⟨done, performed_select.mpr ⟨v, value, performs⟩, rewrites⟩
  | .nextState s => exact performed_replace_leaf rfl h reached
  | .nextValue target value => exact performed_replace_leaf rfl h reached

theorem performedOf_replaceOf (ss : List Stmt) {ts us : List Stmt}
    (h : replaceOf (m.plain next loads) ss = .ok ts) (reached : performedOf ρ ts = .ok us) :
    ∃ done, performedOf ρ ss = .ok done ∧ replaceOf (m.plain next loads) done = .ok us := by
  match ss with
  | [] =>
    cases h
    cases reached
    exact ⟨[], rfl, rfl⟩
  | s :: ss =>
    obtain ⟨first, rest, hs, hss, rfl⟩ := replaceOf_cons.mp h
    obtain ⟨us₁, us₂, reached₁, reached₂, rfl⟩ := performedOf_append.mp reached
    obtain ⟨done₁, performs₁, rewrites₁⟩ := performed_replace s hs reached₁
    obtain ⟨done₂, performs₂, rewrites₂⟩ := performedOf_replaceOf ss hss reached₂
    exact ⟨done₁ ++ done₂, performedOf_cons.mpr ⟨done₁, done₂, performs₁, performs₂, rfl⟩,
      replaceOf_append.mpr ⟨us₁, us₂, rewrites₁, rewrites₂, rfl⟩⟩

theorem performedOfArms_replaceOfArms {shape : Shape} {v : Int} (arms : Arms) {arms' : Arms}
    {us : List Stmt} (h : replaceOfArms (m.plain next loads) arms = .ok arms')
    (reached : performedOfArms ρ shape v arms' = .ok us) :
    ∃ done, performedOfArms ρ shape v arms = .ok done ∧
      replaceOf (m.plain next loads) done = .ok us := by
  match arms with
  | .done =>
    cases h
    cases reached
    exact ⟨[], rfl, rfl⟩
  | .otherwise body =>
    obtain ⟨body', hbody, rfl⟩ := replaceOfArms_otherwise.mp h
    exact performedOf_replaceOf body hbody reached
  | .arm key body rest =>
    obtain ⟨body', rest', hbody, hrest, rfl⟩ := replaceOfArms_arm.mp h
    rw [performedOfArms] at reached ⊢
    split at reached
    next equal =>
      rw [if_pos equal]
      exact performedOf_replaceOf body hbody reached
    next differ =>
      rw [if_neg differ]
      exact performedOfArms_replaceOfArms rest hrest reached
end

theorem leavesOf_replace_leaf {s : Stmt} (leaf : s.isLeaf = true) (alone : s.leaves = [s])
    {ts : List Stmt} (h : replace (m.plain next loads) s = .ok ts) :
    replaceOf (m.plain next loads) s.leaves = .ok (leavesOf ts) := by
  rw [replace_leaf leaf] at h
  rwa [alone, replaceOf_leaf leaf, leavesOf_assigns (plain_assigns leaf h)]

mutual
/-- The leaves of what was rewritten are the rewritten leaves. -/
theorem leavesOf_replace (s : Stmt) {ts : List Stmt}
    (h : replace (m.plain next loads) s = .ok ts) :
    replaceOf (m.plain next loads) s.leaves = .ok (leavesOf ts) := by
  match s with
  | .assign lhs rhs => exact leavesOf_replace_leaf rfl rfl h
  | .branch cond yes no =>
    obtain ⟨yes', no', hyes, hno, same⟩ := replace_branch.mp h
    cases same
    rw [leavesOf, leavesOf, List.append_nil]
    exact replaceOf_append.mpr
      ⟨_, _, leavesOf_replaceOf yes hyes, leavesOf_replaceOf no hno, rfl⟩
  | .select test arms =>
    obtain ⟨arms', harms, same⟩ := replace_select.mp h
    cases same
    rw [leavesOf, leavesOf, List.append_nil]
    exact leavesOfArms_replaceOfArms arms harms
  | .nextState s => exact leavesOf_replace_leaf rfl rfl h
  | .nextValue target value => exact leavesOf_replace_leaf rfl rfl h

theorem leavesOf_replaceOf (ss : List Stmt) {ts : List Stmt}
    (h : replaceOf (m.plain next loads) ss = .ok ts) :
    replaceOf (m.plain next loads) (leavesOf ss) = .ok (leavesOf ts) := by
  match ss with
  | [] =>
    cases h
    rfl
  | s :: ss =>
    obtain ⟨first, rest, hs, hss, rfl⟩ := replaceOf_cons.mp h
    rw [leavesOf_eq (first ++ rest), List.flatMap_append, ← leavesOf_eq, ← leavesOf_eq]
    exact replaceOf_append.mpr ⟨_, _, leavesOf_replace s hs, leavesOf_replaceOf ss hss, rfl⟩

theorem leavesOfArms_replaceOfArms (arms : Arms) {arms' : Arms}
    (h : replaceOfArms (m.plain next loads) arms = .ok arms') :
    replaceOf (m.plain next loads) (leavesOfArms arms) = .ok (leavesOfArms arms') := by
  match arms with
  | .done =>
    cases h
    rfl
  | .otherwise body =>
    obtain ⟨body', hbody, rfl⟩ := replaceOfArms_otherwise.mp h
    exact leavesOf_replaceOf body hbody
  | .arm key body rest =>
    obtain ⟨body', rest', hbody, hrest, rfl⟩ := replaceOfArms_arm.mp h
    exact replaceOf_append.mpr
      ⟨_, _, leavesOf_replaceOf body hbody, leavesOfArms_replaceOfArms rest hrest, rfl⟩
end

theorem sources_plain {s : Stmt} {ts : List Stmt} (h : m.plain next loads s = .ok ts) :
    sourcesOf ts ⊆ s.sources := by
  cases s with
  | nextState s =>
    rw [plain] at h
    split at h
    · cases h
      exact fun _ => id
    · cases h
  | nextValue target value =>
    rw [plain] at h
    split at h
    · cases h
      intro x hx
      rw [sourcesOf_eq] at hx
      simp only [List.flatMap_cons, List.flatMap_nil, sources, Expr.selectors, Expr.int,
        Expr.mentions, List.nil_append, List.append_nil] at hx
      exact List.mem_append_right _ hx
    · cases h
      exact List.nil_subset _
  | _ =>
    cases h
    rw [sourcesOf, sourcesOf, List.append_nil]
    exact fun _ => id

mutual
theorem sources_replace (s : Stmt) {ts : List Stmt}
    (h : replace (m.plain next loads) s = .ok ts) : sourcesOf ts ⊆ s.sources := by
  match s with
  | .assign lhs rhs => exact sources_plain ((replace_leaf rfl).symm.trans h)
  | .branch cond yes no =>
    obtain ⟨yes', no', hyes, hno, same⟩ := replace_branch.mp h
    refine List.Subset.trans (sources_plain same) (List.append_subset.mpr
      ⟨List.subset_append_left .., List.append_subset.mpr ⟨?_, ?_⟩⟩)
    · exact List.subset_append_of_subset_right _
        (List.subset_append_of_subset_left _ (sourcesOf_replaceOf yes hyes))
    · exact List.subset_append_of_subset_right _
        (List.subset_append_of_subset_right _ (sourcesOf_replaceOf no hno))
  | .select test arms =>
    obtain ⟨arms', harms, same⟩ := replace_select.mp h
    exact List.Subset.trans (sources_plain same) (List.append_subset.mpr
      ⟨List.subset_append_left ..,
        List.subset_append_of_subset_right _ (sourcesOfArms_replaceOfArms arms harms)⟩)
  | .nextState s => exact sources_plain ((replace_leaf rfl).symm.trans h)
  | .nextValue target value => exact sources_plain ((replace_leaf rfl).symm.trans h)

/-- Rewriting makes statements read nothing more. -/
theorem sourcesOf_replaceOf (ss : List Stmt) {ts : List Stmt}
    (h : replaceOf (m.plain next loads) ss = .ok ts) : sourcesOf ts ⊆ sourcesOf ss := by
  match ss with
  | [] =>
    cases h
    exact fun _ => id
  | s :: ss =>
    obtain ⟨first, rest, hs, hss, rfl⟩ := replaceOf_cons.mp h
    rw [sourcesOf_eq, List.flatMap_append, ← sourcesOf_eq, ← sourcesOf_eq]
    exact List.append_subset.mpr
      ⟨List.subset_append_of_subset_left _ (sources_replace s hs),
        List.subset_append_of_subset_right _ (sourcesOf_replaceOf ss hss)⟩

theorem sourcesOfArms_replaceOfArms (arms : Arms) {arms' : Arms}
    (h : replaceOfArms (m.plain next loads) arms = .ok arms') :
    sourcesOfArms arms' ⊆ sourcesOfArms arms := by
  match arms with
  | .done =>
    cases h
    exact fun _ => id
  | .otherwise body =>
    obtain ⟨body', hbody, rfl⟩ := replaceOfArms_otherwise.mp h
    exact sourcesOf_replaceOf body hbody
  | .arm key body rest =>
    obtain ⟨body', rest', hbody, hrest, rfl⟩ := replaceOfArms_arm.mp h
    exact List.append_subset.mpr
      ⟨List.subset_append_of_subset_left _ (sourcesOf_replaceOf body hbody),
        List.subset_append_of_subset_right _ (sourcesOfArms_replaceOfArms rest hrest)⟩
end

end Plain

end Machine

end Gateware
