import Gateware.Proofs.Dependence
import Gateware.Proofs.Drivers

/-!
# What statements perform

In a fixed state a statement performs some of its assignments, moves and registered loads, and the
others are passed over. Where statements read nothing that they drive, running them is the same as
running what they perform.
-/
namespace Gateware

namespace Stmt

mutual
/-- The assignments, moves and registered loads that are reached in a state, in order. -/
def performed (ρ : Valuation) : Stmt → Except SimFault (List Stmt)
  | .assign lhs rhs => .ok [.assign lhs rhs]
  | .branch cond yes no => do
    let v ← cond.eval ρ
    if v = 0 then performedOf ρ no else performedOf ρ yes
  | .select test arms => do
    let v ← test.eval ρ
    performedOfArms ρ test.shape v arms
  | .nextState s => .ok [.nextState s]
  | .nextValue target value => .ok [.nextValue target value]

def performedOf (ρ : Valuation) : List Stmt → Except SimFault (List Stmt)
  | [] => .ok []
  | s :: ss => do
    let first ← performed ρ s
    let rest ← performedOf ρ ss
    return first ++ rest

def performedOfArms (ρ : Valuation) (shape : Shape) (v : Int) : Arms → Except SimFault (List Stmt)
  | .done => .ok []
  | .otherwise body => performedOf ρ body
  | .arm key body rest =>
    if shape.wrap key.value = v then performedOf ρ body else performedOfArms ρ shape v rest
end

section Equations

variable {ρ : Valuation}

theorem performed_branch {cond : Expr} {yes no us : List Stmt} :
    performed ρ (.branch cond yes no) = .ok us ↔
      ∃ v, cond.eval ρ = .ok v ∧ performedOf ρ (if v = 0 then no else yes) = .ok us := by
  rw [performed, bind_eq_ok]
  refine exists_congr fun v => and_congr_right fun _ => ?_
  split <;> rfl

theorem performed_select {test : Expr} {arms : Arms} {us : List Stmt} :
    performed ρ (.select test arms) = .ok us ↔
      ∃ v, test.eval ρ = .ok v ∧ performedOfArms ρ test.shape v arms = .ok us := by
  rw [performed, bind_eq_ok]

theorem performedOf_cons {s : Stmt} {ss us : List Stmt} :
    performedOf ρ (s :: ss) = .ok us ↔
      ∃ first rest, performed ρ s = .ok first ∧ performedOf ρ ss = .ok rest ∧
        us = first ++ rest := by
  simp only [performedOf, bind_eq_ok, pure_eq_ok, exists_and_left]

theorem performedOf_singleton {s : Stmt} {us : List Stmt} :
    performedOf ρ [s] = .ok us ↔ performed ρ s = .ok us := by
  rw [performedOf_cons]
  constructor
  · rintro ⟨first, rest, taken, nothing, rfl⟩
    cases nothing
    rwa [List.append_nil]
  · intro taken
    exact ⟨us, [], taken, rfl, us.append_nil.symm⟩

theorem performedOf_append {ss ts us : List Stmt} :
    performedOf ρ (ss ++ ts) = .ok us ↔
      ∃ first rest, performedOf ρ ss = .ok first ∧ performedOf ρ ts = .ok rest ∧
        us = first ++ rest := by
  induction ss generalizing us with
  | nil => simp [performedOf]
  | cons s ss ih =>
    simp only [List.cons_append, performedOf_cons, ih]
    constructor
    · rintro ⟨a, -, ha, ⟨b, c, hb, hc, rfl⟩, rfl⟩
      exact ⟨a ++ b, c, ⟨a, b, ha, hb, rfl⟩, hc, by rw [List.append_assoc]⟩
    · rintro ⟨-, c, ⟨a, b, ha, hb, rfl⟩, hc, rfl⟩
      exact ⟨a, b ++ c, ha, ⟨b, c, hb, hc, rfl⟩, by rw [List.append_assoc]⟩

end Equations

mutual
/-- Only unresolved references keep statements from performing anything. -/
theorem performed_ok (ρ : Valuation) (s : Stmt) (resolved : ∀ e ∈ s.exprs, e.refs = []) :
    ∃ us, performed ρ s = .ok us := by
  match s with
  | .assign lhs rhs => exact ⟨_, rfl⟩
  | .branch cond yes no =>
    simp only [exprs, List.forall_mem_cons, List.forall_mem_append] at resolved
    obtain ⟨v, value⟩ := cond.eval_ok ρ resolved.1
    by_cases zero : v = 0
    · obtain ⟨us, taken⟩ := performedOf_ok ρ no resolved.2.2
      exact ⟨us, performed_branch.mpr ⟨v, value, by rwa [if_pos zero]⟩⟩
    · obtain ⟨us, taken⟩ := performedOf_ok ρ yes resolved.2.1
      exact ⟨us, performed_branch.mpr ⟨v, value, by rwa [if_neg zero]⟩⟩
  | .select test arms =>
    simp only [exprs, List.forall_mem_cons] at resolved
    obtain ⟨v, value⟩ := test.eval_ok ρ resolved.1
    obtain ⟨us, taken⟩ := performedOfArms_ok ρ test.shape v arms resolved.2
    exact ⟨us, performed_select.mpr ⟨v, value, taken⟩⟩
  | .nextState s => exact ⟨_, rfl⟩
  | .nextValue target value => exact ⟨_, rfl⟩

theorem performedOf_ok (ρ : Valuation) (ss : List Stmt) (resolved : ∀ e ∈ exprsOf ss, e.refs = []) :
    ∃ us, performedOf ρ ss = .ok us := by
  match ss with
  | [] => exact ⟨[], rfl⟩
  | s :: ss =>
    simp only [exprsOf, List.forall_mem_append] at resolved
    obtain ⟨first, hs⟩ := performed_ok ρ s resolved.1
    obtain ⟨rest, hss⟩ := performedOf_ok ρ ss resolved.2
    exact ⟨_, performedOf_cons.mpr ⟨first, rest, hs, hss, rfl⟩⟩

theorem performedOfArms_ok (ρ : Valuation) (shape : Shape) (v : Int) (arms : Arms)
    (resolved : ∀ e ∈ exprsOfArms arms, e.refs = []) :
    ∃ us, performedOfArms ρ shape v arms = .ok us := by
  match arms with
  | .done => exact ⟨[], rfl⟩
  | .otherwise body => exact performedOf_ok ρ body resolved
  | .arm key body rest =>
    simp only [exprsOfArms, List.forall_mem_append] at resolved
    rw [performedOfArms]
    split
    · exact performedOf_ok ρ body resolved.1
    · exact performedOfArms_ok ρ shape v rest resolved.2
end

end Stmt

namespace Frame

theorem run_execAll_singleton (s : Stmt) (f : Frame) :
    (execAll [s]).run.run f = (exec s).run.run f := by
  rw [run_execAll_cons]
  rcases (exec s).run.run f with ⟨e | u, g⟩ <;> rfl

theorem Stores.seen_eq {D : Signal → Prop} {f g : Frame} (run : Stores D f g) {s : Signal}
    (undriven : ¬ D s) : g.seen s = f.seen s := by
  cases kind : f.clocked with
  | true => rw [seen_clocked kind, seen_clocked (run.clocked_eq.trans kind), run.state_eq]
  | false =>
    rw [seen_blocking kind, seen_blocking (run.clocked_eq.trans kind), run.latest_eq undriven]

/-- The targets drive only signals of `D` and the sources are none of them. -/
structure OneWay (D : Signal → Prop) (ts : List Expr) (sources : List Signal) : Prop where
  drives : ∀ s, DrivenBy ts s → D s
  sources : ∀ s ∈ sources, ¬ D s

namespace OneWay

variable {D : Signal → Prop} {ts us : List Expr} {xs ys : List Signal}

theorem left (h : OneWay D (ts ++ us) (xs ++ ys)) : OneWay D ts xs where
  drives s hs := h.drives s (hs.mono (List.subset_append_left ts us) s)
  sources s hs := h.sources s (List.mem_append_left ys hs)

theorem right (h : OneWay D (ts ++ us) (xs ++ ys)) : OneWay D us ys where
  drives s hs := h.drives s (hs.mono (List.subset_append_right ts us) s)
  sources s hs := h.sources s (List.mem_append_right xs hs)

/-- What a one-way list reads first has the value that it has from outside. -/
theorem eval_eq {e : Expr} {ρ : Valuation} {f : Frame} (h : OneWay D ts (e.mentions ++ xs))
    (agree : ∀ s, ¬ D s → f.seen s = ρ s) : e.eval f.seen = e.eval ρ :=
  e.eval_congr fun s hs => agree s (h.sources s (List.mem_append_left xs hs))

end OneWay

section Performed

variable {D : Signal → Prop} {ρ : Valuation}

mutual
/-- Running a statement that reads nothing it drives is running what it performs. -/
theorem exec_performed (s : Stmt) {f : Frame} (apart : OneWay D s.targets s.sources)
    (agree : ∀ x, ¬ D x → f.seen x = ρ x) {us : List Stmt} (reached : s.performed ρ = .ok us) :
    (exec s).run.run f = (execAll us).run.run f := by
  match s with
  | .assign lhs rhs =>
    cases reached
    rw [run_execAll_singleton]
  | .branch cond yes no =>
    obtain ⟨v, value, taken⟩ := Stmt.performed_branch.mp reached
    rw [run_exec_branch, apart.eval_eq agree]
    simp only [value]
    have inside : OneWay D (Stmt.targetsOf yes ++ Stmt.targetsOf no)
        (Stmt.sourcesOf yes ++ Stmt.sourcesOf no) :=
      ⟨apart.drives, fun x hx => apart.sources x (List.mem_append_right _ hx)⟩
    by_cases zero : v = 0
    · rw [if_pos zero] at taken ⊢
      exact execAll_performed no inside.right agree taken
    · rw [if_neg zero] at taken ⊢
      exact execAll_performed yes inside.left agree taken
  | .select test arms =>
    obtain ⟨v, value, taken⟩ := Stmt.performed_select.mp reached
    rw [run_exec_select, apart.eval_eq agree, value]
    exact execArms_performed test.shape v arms
      ⟨apart.drives, fun x hx => apart.sources x (List.mem_append_right _ hx)⟩ agree taken
  | .nextState s =>
    cases reached
    rw [run_execAll_singleton]
  | .nextValue target value =>
    cases reached
    rw [run_execAll_singleton]

theorem execAll_performed (ss : List Stmt) {f : Frame}
    (apart : OneWay D (Stmt.targetsOf ss) (Stmt.sourcesOf ss))
    (agree : ∀ x, ¬ D x → f.seen x = ρ x) {us : List Stmt}
    (reached : Stmt.performedOf ρ ss = .ok us) :
    (execAll ss).run.run f = (execAll us).run.run f := by
  match ss with
  | [] =>
    cases reached
    rfl
  | s :: ss =>
    obtain ⟨first, rest, hs, hss, rfl⟩ := Stmt.performedOf_cons.mp reached
    rw [run_execAll_cons, run_execAll_append, ← exec_performed s apart.left agree hs]
    have run := exec_stores s f
    rcases end_ : (exec s).run.run f with ⟨e | u, g⟩
    · rfl
    · rw [end_] at run
      -- What the first statement drives, the others do not see.
      exact execAll_performed ss apart.right
        (fun x hx => (run.seen_eq fun driven => hx (apart.left.drives x driven)).trans (agree x hx))
        hss

theorem execArms_performed (shape : Shape) (v : Int) (arms : Arms) {f : Frame}
    (apart : OneWay D (Stmt.targetsOfArms arms) (Stmt.sourcesOfArms arms))
    (agree : ∀ x, ¬ D x → f.seen x = ρ x) {us : List Stmt}
    (reached : Stmt.performedOfArms ρ shape v arms = .ok us) :
    (execArms shape v arms).run.run f = (execAll us).run.run f := by
  match arms with
  | .done =>
    cases reached
    rfl
  | .otherwise body =>
    rw [execArms_otherwise]
    exact execAll_performed body apart agree reached
  | .arm key body rest =>
    rw [Stmt.performedOfArms] at reached
    rw [execArms_arm]
    split at reached
    next equal =>
      rw [if_pos equal]
      exact execAll_performed body apart.left agree reached
    next differ =>
      rw [if_neg differ]
      exact execArms_performed shape v rest apart.right agree reached
end

end Performed

end Frame

end Gateware
