import Gateware.Proofs.Folding.Invariants
import Gateware.Proofs.Grouping

/-!
# What folded expressions read

The final expression of a signal is about signals that are read in the process that drives it.
Other statements leave it alone, however they are mixed with those of the process.

## Main results

`folded_reads`: a signal in the final expression of `t` is an input of the process that drives `t`.

## Proof strategy

The invariant is `Symbolic.Reads D S`: what the signals of `D` hold is about signals of `S`. With
the outputs and the inputs of a process for `D` and `S`, statements of the process keep it because
they store to signals of `D` expressions made of signals of `S`. All others keep it because they
store to no signal of `D`.
-/
namespace Gateware

variable {D S : Signal → Prop}

namespace Symbolic

/-- What the signals of `D` hold is about signals of `S`. -/
abbrev Reads (D S : Signal → Prop) (env : Symbolic) : Prop :=
  env.Holds D fun e => Within S e.mentions

theorem reads_empty : Reads D S ∅ := fun _ _ _ member => (List.not_mem_nil member).elim

/-! ### Storing elsewhere -/

theorem held_merge_of_eq {cond : Expr} {yes no : Symbolic} {s : Signal} {e : Expr}
    (hyes : yes.held s = e) (hno : no.held s = e) : (merge cond yes no).held s = e := by
  rw [held_merge, if_pos (hyes.trans hno.symm), hyes]

mutual
theorem held_store_other (env : Symbolic) (t v : Expr) {x : Signal} (other : x ∉ t.drives) :
    (env.store t v).held x = env.held x := by
  match t with
  | .literal _ | .ref _ | .unary .. | .binary .. | .replicate .. => simp only [store]
  | .signal s =>
    rw [store, held_insert, if_neg (by simpa [Expr.drives] using other)]
  | .slice a start stop =>
    rw [store]
    exact held_store_other env a _ other
  | .concat ps =>
    rw [store]
    exact held_storeParts_other env ps _ 0 other
  | .mux q [] => simp only [store, storeChoices]
  | .mux q [c] =>
    rw [store]
    exact held_store_other env c v fun driven => other (List.mem_append_left _ driven)
  | .mux q (c :: d :: ds) =>
    rw [store]
    · exact held_storeChoices_other env q (c :: d :: ds) v 0 _ other
    · simp
termination_by structural t

theorem held_storeParts_other (env : Symbolic) (ps : List Expr) (v : Expr) (lo : Nat) {x : Signal}
    (other : x ∉ Expr.drivesOf ps) : (env.storeParts ps v lo).held x = env.held x := by
  match ps with
  | [] => simp only [storeParts]
  | p :: ps =>
    rw [Expr.drivesOf, List.mem_append, not_or] at other
    rw [storeParts, held_storeParts_other _ ps v _ other.2, held_store_other env p _ other.1]
termination_by structural ps

theorem held_storeChoices_other (env : Symbolic) (q : Expr) (cs : List Expr) (v : Expr)
    (i last : Nat) {x : Signal} (other : x ∉ Expr.drivesOf cs) :
    (env.storeChoices q cs v i last).held x = env.held x := by
  match cs with
  | [] => simp only [storeChoices]
  | c :: cs =>
    rw [Expr.drivesOf, List.mem_append, not_or] at other
    rw [storeChoices, held_storeChoices_other _ q cs v _ last other.2]
    exact held_merge_of_eq (held_store_other env c v other.1) rfl
termination_by structural cs
end

end Symbolic

namespace Stmt

mutual
theorem held_fold (env : Symbolic) (s : Stmt) {x : Signal} (other : ∀ t ∈ s.targets, x ∉ t.drives) :
    (fold env s).held x = env.held x := by
  match s with
  | .assign lhs rhs => exact env.held_store_other lhs rhs (other lhs (.head _))
  | .branch cond yes no =>
    obtain ⟨ofYes, ofNo⟩ := List.forall_mem_append.mp other
    exact Symbolic.held_merge_of_eq (held_foldAll env yes ofYes) (held_foldAll env no ofNo)
  | .select test arms => exact held_foldArms env test arms other
  | .nextState _ | .nextValue _ _ => rfl

theorem held_foldAll (env : Symbolic) (ss : List Stmt) {x : Signal}
    (other : ∀ t ∈ targetsOf ss, x ∉ t.drives) : (foldAll env ss).held x = env.held x := by
  match ss with
  | [] => rfl
  | s :: ss =>
    obtain ⟨first, later⟩ := List.forall_mem_append.mp other
    rw [foldAll, held_foldAll _ ss later, held_fold env s first]

theorem held_foldArms (env : Symbolic) (test : Expr) (arms : Arms) {x : Signal}
    (other : ∀ t ∈ targetsOfArms arms, x ∉ t.drives) :
    (foldArms env test arms).held x = env.held x := by
  match arms with
  | .done => rfl
  | .otherwise body => exact held_foldAll env body other
  | .arm key body rest =>
    obtain ⟨first, later⟩ := List.forall_mem_append.mp other
    exact Symbolic.held_merge_of_eq (held_foldAll env body first)
      (held_foldArms env test rest later)
end

/-- Statements that are confined to `D` and read `S` may be mixed with statements that have nothing
to do with `D`. -/
theorem reads_mixed {env : Symbolic} (h : env.Reads D S) (ss : List Stmt)
    (each : ∀ s ∈ ss, Confined D S s.targets ∧ Within S s.sources ∨
      ∀ x, D x → ∀ t ∈ s.targets, x ∉ t.drives) : (foldAll env ss).Reads D S := by
  induction ss generalizing env with
  | nil => exact h
  | cons s ss ih =>
    obtain ⟨here, later⟩ := List.forall_mem_cons.mp each
    refine ih ?_ later
    rcases here with ⟨confined, sources⟩ | other
    · exact holds_fold (Expr.hereditary_mentions S) h s (admits_of_confined s confined sources)
    -- What is stored elsewhere may be about any signal.
    · intro x hx
      rw [held_fold env s (other x hx)]
      exact h x hx

end Stmt

namespace Process

/-- A signal in the final expression of `t` is read in the process that drives `t`. -/
theorem folded_reads {ss : List Stmt} (places : ∀ t ∈ Stmt.targetsOf ss, t.isPlace = true)
    {p : Process} (hp : p ∈ ofStmts ss) {t : Signal} (driven : t ∈ p.outputs) {e : Expr}
    (found : (Stmt.folded ss).get? t = some e) {s : Signal} (mentioned : s ∈ e.mentions) :
    s ∈ p.inputs := by
  obtain ⟨g, hg, rfl⟩ := List.mem_map.mp hp
  have h := grouped ss
  have reads : (Stmt.folded ss).Reads (· ∈ g.writes) (· ∈ Stmt.read g.members.values) := by
    refine Stmt.reads_mixed Symbolic.reads_empty ss fun st listed => ?_
    obtain ⟨i, found⟩ := List.mem_iff_getElem?.mp listed
    obtain ⟨k, hk, member⟩ := h.covered i st found
    -- Groups share no signal, so the statement belongs to this one or does not touch it.
    have assigned {x : Signal} {u : Expr} (hu : u ∈ st.targets) (hx : x ∈ u.drives) :
        x ∈ k.writes := by
      refine (h.writes k hk x).mpr ⟨i, st, member, ?_⟩
      simpa [Stmt.assigned, Stmt.targetsOf] using ⟨u, hu, hx⟩
    by_cases own : k = g
    · subst own
      left
      refine ⟨fun u hu => ⟨.inl (places u ?_), fun x hx => assigned hu hx⟩, fun x hx => ?_⟩
      · rw [Stmt.targetsOf_eq]
        exact List.mem_flatMap.mpr ⟨st, listed, hu⟩
      · refine Stmt.mem_read.mpr ⟨st, ?_, hx⟩
        exact List.mem_map.mpr ⟨(i, st), OrdMap.get?_eq_some_iff.mp member, rfl⟩
    · right
      intro x mine u hu hx
      exact own (h.eq_of_common hk hg (assigned hu hx) mine)
  have held : (Stmt.folded ss).held t = e := by rw [Symbolic.held, OrdMap.getD, found]; rfl
  have within := reads t driven
  rw [held] at within
  exact within s mentioned

end Process

end Gateware
