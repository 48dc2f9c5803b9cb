import Gateware.Proofs.Rekeying
import Gateware.Proofs.Renumbering.Expr
import Gateware.Stmt.Fold

/-!
# Statements about renumbered signals

Statements about renumbered signals assign and read the renumbered signals, and folding them gives
the same expressions, renumbered.

## Main result

`folded_renumber`: the final expressions of combinational statements, and the order of the signals
that have one, do not depend on numbers beyond their order.

## Proof strategy

A store of expressions is a map from signals. Under an increasing numbering it is exchanged for the
map with new keys, and every operation of folding commutes with the exchange. The only test that
looks at expressions is the one for equal expressions in `merge`; there it matters that renumbering
is injective.
-/
namespace Gateware

open Ordered (Keeps)

variable {r : Numbering}

theorem Signal.keeps_renumber [r.Increasing] : Keeps (Signal.renumber r) := Signal.compare_renumber

namespace Stmt

/-- The same statements about renumbered signals. -/
abbrev renumberOf (r : Numbering) (ss : List Stmt) : List Stmt := mapExprsOf (Expr.renumber r) ss

theorem renumberOf_eq_map : renumberOf r = List.map (mapExprs (Expr.renumber r)) :=
  funext (mapExprsOf_eq _)

@[simp] theorem isEmpty_mapExprsOf (f : Expr → Expr) (ss : List Stmt) :
    (mapExprsOf f ss).isEmpty = ss.isEmpty := by
  rw [mapExprsOf_eq, List.isEmpty_map]

/-! ### Values exchanged twice -/

theorem mapExprsOf_trans {f g h : Expr → Expr} (ss : List Stmt)
    (along : ∀ e ∈ exprsOf ss, g (f e) = h e) :
    mapExprsOf g (mapExprsOf f ss) = mapExprsOf h ss := by
  induction ss using listInduction <;>
    simp_all [mapExprsOf, mapExprs, mapExprsOfArms, exprsOf, exprs, exprsOfArms, or_imp, forall_and]

/-! ### What statements read and drive -/

theorem targetDrives_renumberOf (ss : List Stmt) :
    (targetsOf (renumberOf r ss)).flatMap Expr.drives =
      ((targetsOf ss).flatMap Expr.drives).map (Signal.renumber r) := by
  rw [targetsOf_mapExprsOf, List.flatMap_map, List.map_flatMap]
  simp only [Expr.drives_renumber]

theorem assigned_renumberOf [r.Increasing] (ss : List Stmt) :
    assigned (renumberOf r ss) = (assigned ss).image (Signal.renumber r) := by
  rw [assigned, targetDrives_renumberOf, OrdSet.ofList_map Signal.keeps_renumber, assigned]

theorem targetFault?_renumberOf (ss : List Stmt) :
    targetFault? (renumberOf r ss) = targetFault? ss := by
  simp only [targetFault?, targetsOf_mapExprsOf, List.find?_map, Function.comp_def,
    Expr.isTarget_renumber, Option.map_map, Expr.text_renumber]

theorem sourcesOf_renumberOf (ss : List Stmt) :
    sourcesOf (renumberOf r ss) = (sourcesOf ss).map (Signal.renumber r) := by
  induction ss using listInduction <;>
    simp_all [mapExprsOf, mapExprs, mapExprsOfArms, sourcesOf, sources, sourcesOfArms,
      Expr.selectors_renumber, Expr.mentions_renumber]

theorem leavesOf_mapExprsOf (f : Expr → Expr) (ss : List Stmt) :
    leavesOf (mapExprsOf f ss) = (leavesOf ss).map (mapExprs f) := by
  induction ss using listInduction <;>
    simp_all [mapExprsOf, mapExprs, mapExprsOfArms, leavesOf, leaves, leavesOfArms]

@[simp] theorem kind_mapExprs (f : Expr → Expr) (s : Stmt) : (s.mapExprs f).kind = s.kind := by
  cases s <;> rfl

end Stmt

/-! ### Stores of expressions -/

namespace Symbolic

/-- The same store about renumbered signals. -/
def renumber (r : Numbering) (env : Symbolic) : Symbolic :=
  OrdMap.rekey (Signal.renumber r) (Expr.renumber r) env

theorem held_renumber [r.Increasing] (env : Symbolic) (s : Signal) :
    (env.renumber r).held (s.renumber r) = (env.held s).renumber r :=
  OrdMap.getD_rekey Signal.keeps_renumber env s (initial s)

theorem merge_renumber [r.Increasing] (cond : Expr) (yes no : Symbolic) :
    merge (cond.renumber r) (yes.renumber r) (no.renumber r) = (merge cond yes no).renumber r := by
  rw [merge, renumber, renumber, OrdMap.keys_rekey Signal.keeps_renumber,
    OrdMap.keys_rekey Signal.keeps_renumber, ← OrdSet.image_union]
  apply OrdMap.ofKeys_image Signal.keeps_renumber
  intro s
  change (if (yes.renumber r).held (s.renumber r) = (no.renumber r).held (s.renumber r)
      then (yes.renumber r).held (s.renumber r)
      else .select _ ((yes.renumber r).held (s.renumber r))
        ((no.renumber r).held (s.renumber r))) = _
  simp only [held_renumber, Expr.renumber_injective.eq_iff]
  split <;> rfl

mutual
theorem heldBy_renumber [r.Increasing] (env : Symbolic) (e : Expr) :
    (env.renumber r).heldBy (e.renumber r) = (env.heldBy e).renumber r := by
  cases e with
  | literal | ref | unary | binary | replicate => rfl
  | signal s => exact held_renumber env s
  | slice a start stop =>
    rw [Expr.renumber, heldBy, heldBy, heldBy_renumber env a, Expr.extract_renumber]
  | concat ps => rw [Expr.renumber, heldBy, heldBy, heldByParts_renumber env ps, Expr.renumber]
  | mux s cs => rw [Expr.renumber, heldBy, heldBy, heldByParts_renumber env cs, Expr.renumber]

theorem heldByParts_renumber [r.Increasing] (env : Symbolic) (ps : List Expr) :
    (env.renumber r).heldByParts (Expr.renumberAll r ps) =
      Expr.renumberAll r (env.heldByParts ps) := by
  cases ps with
  | nil => rfl
  | cons p ps =>
    rw [Expr.renumberAll, heldByParts, heldByParts, heldBy_renumber env p,
      heldByParts_renumber env ps, Expr.renumberAll]
end

theorem splice_renumber (old new : Expr) (start stop : Nat) :
    splice (old.renumber r) (new.renumber r) start stop =
      (splice old new start stop).renumber r := by
  rw [splice, splice, ← Expr.join_renumberAll, Expr.renumberAll_eq, List.map_append,
    List.map_append]
  simp only [Expr.width_renumber, Expr.extract_renumber, Expr.fit_renumber]
  by_cases low : 0 < start <;> by_cases high : stop < old.width <;> simp [low, high]

theorem picks_renumber (selector : Expr) (i last : Nat) :
    picks (selector.renumber r) i last = (picks selector i last).renumber r := by
  rw [picks, picks]
  split <;> rfl

mutual
theorem store_renumber [r.Increasing] (env : Symbolic) (t v : Expr) :
    (env.renumber r).store (t.renumber r) (v.renumber r) = (env.store t v).renumber r := by
  cases t with
  | literal | ref | unary | binary | replicate =>
    simp only [Expr.renumber, store]
  | signal s =>
    simp only [Expr.renumber, store]
    exact OrdMap.insert_rekey Signal.keeps_renumber env s v
  | slice a start stop =>
    simp only [Expr.renumber, store]
    rw [heldBy_renumber, splice_renumber, store_renumber env a]
  | concat ps =>
    simp only [Expr.renumber, store, Expr.width_concat_renumberAll, Expr.fit_renumber]
    rw [storeParts_renumber env ps]
  | mux s cs =>
    match cs with
    | [] => simp only [Expr.renumber, Expr.renumberAll, store, storeChoices]
    | [c] =>
      simp only [Expr.renumber, Expr.renumberAll, store]
      rw [store_renumber env c]
    | c :: d :: ds =>
      -- `store` counts the choices, and renumbering has to be seen to keep their number
      have parts := storeChoices_renumber env s (c :: d :: ds) v 0 ((c :: d :: ds).length - 1)
      simp only [Expr.renumberAll] at parts
      simp only [Expr.renumber, Expr.renumberAll, store, List.length_cons, Expr.length_renumberAll]
      simpa only [List.length_cons] using parts
termination_by structural t

theorem storeParts_renumber [r.Increasing] (env : Symbolic) (ps : List Expr) (v : Expr) (lo : Nat) :
    (env.renumber r).storeParts (Expr.renumberAll r ps) (v.renumber r) lo =
      (env.storeParts ps v lo).renumber r := by
  cases ps with
  | nil => simp only [Expr.renumberAll, storeParts]
  | cons p ps =>
    simp only [Expr.renumberAll, storeParts, Expr.width_renumber, Expr.extract_renumber]
    rw [store_renumber env p, storeParts_renumber _ ps]
termination_by structural ps

theorem storeChoices_renumber [r.Increasing] (env : Symbolic) (selector : Expr) (cs : List Expr)
    (v : Expr) (i last : Nat) :
    (env.renumber r).storeChoices (selector.renumber r) (Expr.renumberAll r cs) (v.renumber r) i
      last = (env.storeChoices selector cs v i last).renumber r := by
  cases cs with
  | nil => simp only [Expr.renumberAll, storeChoices]
  | cons c cs =>
    simp only [Expr.renumberAll, storeChoices, picks_renumber]
    rw [store_renumber env c, merge_renumber, storeChoices_renumber _ selector cs]
termination_by structural cs
end

mutual
theorem overflows_renumber [r.Increasing] (env : Symbolic) (t v : Expr) :
    (env.renumber r).overflows (t.renumber r) (v.renumber r) = env.overflows t v := by
  cases t with
  | literal | signal | ref | unary | binary | replicate => rfl
  | slice a start stop =>
    simp only [Expr.renumber, overflows, Expr.unfit_renumber]
    rw [heldBy_renumber, splice_renumber, overflows_renumber env a]
  | concat ps =>
    simp only [Expr.renumber, overflows, Expr.width_concat_renumberAll, Expr.fit_renumber,
      Expr.unfit_renumber]
    rw [overflowsParts_renumber env ps]
  | mux s cs =>
    match cs with
    | [] => rfl
    | [c] => exact overflows_renumber env c v
    | c :: d :: ds =>
      have parts := overflowsChoices_renumber env s (c :: d :: ds) v 0 ((c :: d :: ds).length - 1)
      simp only [Expr.renumberAll] at parts
      simp only [Expr.renumber, Expr.renumberAll, overflows, List.length_cons,
        Expr.length_renumberAll]
      simpa only [List.length_cons] using parts
termination_by structural t

theorem overflowsParts_renumber [r.Increasing] (env : Symbolic) (ps : List Expr) (v : Expr)
    (lo : Nat) :
    (env.renumber r).overflowsParts (Expr.renumberAll r ps) (v.renumber r) lo =
      env.overflowsParts ps v lo := by
  cases ps with
  | nil => rfl
  | cons p ps =>
    simp only [Expr.renumberAll, overflowsParts, Expr.width_renumber, Expr.extract_renumber]
    rw [overflows_renumber env p, store_renumber, overflowsParts_renumber _ ps]
termination_by structural ps

theorem overflowsChoices_renumber [r.Increasing] (env : Symbolic) (selector : Expr)
    (cs : List Expr) (v : Expr) (i last : Nat) :
    (env.renumber r).overflowsChoices (selector.renumber r) (Expr.renumberAll r cs) (v.renumber r)
      i last = env.overflowsChoices selector cs v i last := by
  cases cs with
  | nil => rfl
  | cons c cs =>
    simp only [Expr.renumberAll, overflowsChoices, picks_renumber]
    rw [overflows_renumber env c, store_renumber, merge_renumber,
      overflowsChoices_renumber _ selector cs]
termination_by structural cs
end

end Symbolic

namespace Stmt

mutual
theorem fold_renumber [r.Increasing] (env : Symbolic) (s : Stmt) :
    fold (env.renumber r) (s.mapExprs (Expr.renumber r)) = (fold env s).renumber r := by
  cases s with
  | assign lhs rhs => exact Symbolic.store_renumber env lhs rhs
  | branch cond yes no =>
    rw [mapExprs, fold, fold, foldAll_renumber env yes, foldAll_renumber env no,
      Symbolic.merge_renumber]
  | select test arms => rw [mapExprs, fold, fold, foldArms_renumber env test arms]
  | nextState | nextValue => rfl

theorem foldAll_renumber [r.Increasing] (env : Symbolic) (ss : List Stmt) :
    foldAll (env.renumber r) (renumberOf r ss) = (foldAll env ss).renumber r := by
  cases ss with
  | nil => rfl
  | cons s ss =>
    rw [renumberOf, mapExprsOf, foldAll, foldAll, fold_renumber env s, foldAll_renumber _ ss]

theorem foldArms_renumber [r.Increasing] (env : Symbolic) (test : Expr) (arms : Arms) :
    foldArms (env.renumber r) (test.renumber r) (mapExprsOfArms (Expr.renumber r) arms) =
      (foldArms env test arms).renumber r := by
  cases arms with
  | done => rfl
  | otherwise body => exact foldAll_renumber env body
  | arm key body rest =>
    rw [mapExprsOfArms, foldArms, foldArms, foldAll_renumber env body,
      foldArms_renumber env test rest]
    exact Symbolic.merge_renumber (.eq test (.literal key)) _ _
end

/-- Folding renumbered statements gives the renumbered expressions. -/
theorem folded_renumber [r.Increasing] (ss : List Stmt) :
    folded (renumberOf r ss) = (folded ss).renumber r :=
  foldAll_renumber ∅ ss

mutual
theorem overflows_renumber [r.Increasing] (env : Symbolic) (s : Stmt) :
    overflows (env.renumber r) (s.mapExprs (Expr.renumber r)) = overflows env s := by
  cases s with
  | assign lhs rhs => exact env.overflows_renumber lhs rhs
  | branch cond yes no =>
    rw [mapExprs, overflows, overflows, overflowsAll_renumber env yes, overflowsAll_renumber env no]
  | select test arms => exact overflowsArms_renumber env arms
  | nextState | nextValue => rfl

theorem overflowsAll_renumber [r.Increasing] (env : Symbolic) (ss : List Stmt) :
    overflowsAll (env.renumber r) (renumberOf r ss) = overflowsAll env ss := by
  cases ss with
  | nil => rfl
  | cons s ss =>
    rw [renumberOf, mapExprsOf, overflowsAll, overflowsAll, overflows_renumber env s, fold_renumber,
      overflowsAll_renumber _ ss]

theorem overflowsArms_renumber [r.Increasing] (env : Symbolic) (arms : Arms) :
    overflowsArms (env.renumber r) (mapExprsOfArms (Expr.renumber r) arms) =
      overflowsArms env arms := by
  cases arms with
  | done => rfl
  | otherwise body => exact overflowsAll_renumber env body
  | arm key body rest =>
    rw [mapExprsOfArms, overflowsArms, overflowsArms, overflowsAll_renumber env body,
      overflowsArms_renumber env rest]
end

/-- Folding renumbered statements stops where it stopped. -/
theorem stopsFolding_renumber [r.Increasing] (ss : List Stmt) :
    stopsFolding (renumberOf r ss) = stopsFolding ss :=
  overflowsAll_renumber ∅ ss

end Stmt

end Gateware
