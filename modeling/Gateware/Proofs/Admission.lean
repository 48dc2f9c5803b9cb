import Gateware.Expr.Ref
import Gateware.Proofs.Mentions

/-!
# Targets and values made for a property

A run stores values into targets, and a partial store reads back what the target holds. Statements
admit a property of expressions, with a set of signals to store into, if all they read has the
property and all they drive is in the set. Runs on numbers and on expressions keep what is said of
such signals and expressions.

## Main results

* `Stmt.admitsAll_of_exprs`: from what is said of all expressions.
* `Stmt.admitsAll_of_confined`: from the signals that are read and driven.
-/
namespace Gateware

namespace Expr

mutual
/-- A target that may be stored into: it drives signals of `D`, what it reads has the property, and
no bits that it takes are none, unless `T`. -/
def Admits (D : Signal → Prop) (P : Expr → Prop) (T : Prop) : Expr → Prop
  | .signal s => D s
  | .slice a start stop => (start < stop ∨ T) ∧ a.Admits D P T
  | .concat ps => AdmitsAll D P T ps ∧ ∀ p ∈ ps, 0 < p.width ∨ T
  | .mux s cs => P s ∧ AdmitsAll D P T cs
  | e => P e

def AdmitsAll (D : Signal → Prop) (P : Expr → Prop) (T : Prop) : List Expr → Prop
  | [] => True
  | p :: ps => p.Admits D P T ∧ AdmitsAll D P T ps
end

theorem admitsAll_iff {D : Signal → Prop} {P : Expr → Prop} {T : Prop} {ps : List Expr} :
    AdmitsAll D P T ps ↔ ∀ p ∈ ps, p.Admits D P T := by
  induction ps with
  | nil => simp [AdmitsAll]
  | cons p ps ih => rw [AdmitsAll, ih, List.forall_mem_cons]

mutual
/-- Whether a target is built from signals, literals and references alone. Storing there reads
nothing but the signals it drives and the selectors of its choices. -/
def isPlace : Expr → Bool
  | .signal _ => true
  | .literal _ => true
  | .ref _ => true
  | .slice a _ _ => a.isPlace
  | .concat ps => arePlaces ps
  | .mux _ cs => arePlaces cs
  | _ => false

def arePlaces : List Expr → Bool
  | [] => true
  | p :: ps => p.isPlace && arePlaces ps
end

theorem arePlaces_iff {ps : List Expr} : arePlaces ps = true ↔ ∀ p ∈ ps, p.isPlace = true := by
  induction ps with
  | nil => simp [arePlaces]
  | cons p ps ih => rw [arePlaces, Bool.and_eq_true, ih, List.forall_mem_cons]

theorem isPlace_of_isTarget (t : Expr) (target : t.isTarget = true) : t.isPlace = true := by
  induction t with
  | signal | ref => rfl
  | slice _ _ _ ih => exact ih target
  | concat ps ih | mux _ ps _ ih =>
    exact arePlaces_iff.mpr fun p hp => ih p hp (isTarget_of_mem target p hp)
  | literal | unary | binary | replicate => simp [isTarget] at target

/-! ### References in targets -/

mutual
/-- The references that an assignment to the expression stores to. -/
def drivenRefs : Expr → List DomainRef
  | .ref r => [r]
  | .slice a _ _ => a.drivenRefs
  | .concat ps => drivenRefsOf ps
  | .mux _ cs => drivenRefsOf cs
  | _ => []

def drivenRefsOf : List Expr → List DomainRef
  | [] => []
  | p :: ps => p.drivenRefs ++ drivenRefsOf ps
end

theorem drivenRefsOf_eq (ps : List Expr) : drivenRefsOf ps = ps.flatMap drivenRefs := by
  induction ps with
  | nil => rfl
  | cons p ps ih => rw [drivenRefsOf, ih, List.flatMap_cons]

theorem drivenRefs_subset_refs (t : Expr) : t.drivenRefs ⊆ t.refs := by
  induction t with
  | ref => exact fun _ => id
  | slice _ _ _ ih => exact ih
  | concat ps ih =>
    rw [drivenRefs, refs, drivenRefsOf_eq, refsOf_eq]
    exact flatMap_subset_flatMap ih
  | mux s cs _ ih =>
    rw [drivenRefs, refs, drivenRefsOf_eq, refsOf_eq]
    exact List.subset_append_of_subset_right _ (flatMap_subset_flatMap ih)
  | literal | signal | unary | binary | replicate => exact List.nil_subset _

theorem bindRefs_ref (e : Expr) : e.bindRefs .ref = e := by
  induction e with
  | literal | signal | ref => rfl
  | concat ps ih | mux _ ps _ ih =>
    simp only [bindRefs, bindRefsOf_eq_map, List.map_congr_left ih, List.map_id', *]
  | _ => simp only [bindRefs, *]

/-! ### Places -/

variable {D S : Signal → Prop}

/-- A target is made for expressions about the signals of `S`, if it drives signals of `D` and its
selectors are about `S`. What cannot be driven counts only where `S` leaves signals out. -/
theorem admits_of_place (t : Expr) (place : t.isPlace = true ∨ ∀ s, S s)
    (driven : Within D t.drives) (read : Within S t.selectors) :
    t.Admits D (fun e => Within S e.mentions) True := by
  induction t with
  | literal | ref => exact fun _ member => (List.not_mem_nil member).elim
  | signal s => exact driven s (.head _)
  | slice _ _ _ ih => exact ⟨.inr trivial, ih place driven read⟩
  | concat ps ih =>
    rw [isPlace, arePlaces_iff] at place
    rw [drives, drivesOf_eq, Within, List.forall_mem_flatMap] at driven
    rw [selectors, selectorsOf_eq, Within, List.forall_mem_flatMap] at read
    exact ⟨admitsAll_iff.mpr fun p hp =>
      ih p hp (place.imp_left (· p hp)) (driven p hp) (read p hp), fun _ _ => .inr trivial⟩
  | mux s cs _ ih =>
    rw [isPlace, arePlaces_iff] at place
    rw [drives, drivesOf_eq, Within, List.forall_mem_flatMap] at driven
    rw [selectors, selectorsOf_eq, Within, List.forall_mem_append, List.forall_mem_flatMap] at read
    exact ⟨read.1, admitsAll_iff.mpr fun c hc =>
      ih c hc (place.imp_left (· c hc)) (driven c hc) (read.2 c hc)⟩
  | unary | binary | replicate => exact fun s _ => place.resolve_left Bool.false_ne_true s

end Expr

namespace Stmt

section Runs

variable (D : Signal → Prop) (P : Expr → Prop) (T : Prop)

mutual
/-- A statement whose targets may be stored into and whose values have the property. -/
def Admits : Stmt → Prop
  | .assign lhs rhs => lhs.Admits D P T ∧ P rhs
  | .branch cond yes no => P cond ∧ AdmitsAll yes ∧ AdmitsAll no
  | .select test arms => P test ∧ AdmitsArms arms
  | .nextState _ | .nextValue .. => True

def AdmitsAll : List Stmt → Prop
  | [] => True
  | s :: ss => s.Admits ∧ AdmitsAll ss

def AdmitsArms : Arms → Prop
  | .done => True
  | .otherwise body => AdmitsAll body
  | .arm _ body rest => AdmitsAll body ∧ AdmitsArms rest
end

end Runs

variable {D : Signal → Prop} {P : Expr → Prop} {T : Prop}

mutual
theorem admits_of_exprs (s : Stmt) (each : ∀ e ∈ s.exprs, P e ∧ e.Admits D P T) :
    s.Admits D P T := by
  match s with
  | .assign lhs rhs => exact ⟨(each lhs (.head _)).2, (each rhs (.tail _ (.head _))).1⟩
  | .branch cond yes no =>
    simp only [exprs, List.forall_mem_cons, List.forall_mem_append] at each
    exact ⟨each.1.1, admitsAll_of_exprs yes each.2.1, admitsAll_of_exprs no each.2.2⟩
  | .select test arms =>
    simp only [exprs, List.forall_mem_cons] at each
    exact ⟨each.1.1, admitsArms_of_exprs arms each.2⟩
  | .nextState _ | .nextValue .. => exact trivial

theorem admitsAll_of_exprs (ss : List Stmt) (each : ∀ e ∈ exprsOf ss, P e ∧ e.Admits D P T) :
    AdmitsAll D P T ss := by
  match ss with
  | [] => exact trivial
  | s :: ss =>
    simp only [exprsOf, List.forall_mem_append] at each
    exact ⟨admits_of_exprs s each.1, admitsAll_of_exprs ss each.2⟩

theorem admitsArms_of_exprs (arms : Arms) (each : ∀ e ∈ exprsOfArms arms, P e ∧ e.Admits D P T) :
    AdmitsArms D P T arms := by
  match arms with
  | .done => exact trivial
  | .otherwise body => exact admitsAll_of_exprs body each
  | .arm key body rest =>
    simp only [exprsOfArms, List.forall_mem_append] at each
    exact ⟨admitsAll_of_exprs body each.1, admitsArms_of_exprs rest each.2⟩
end

variable {S : Signal → Prop}

/-- Targets are places, unless `S` holds all signals, and drive signals of `D` only. -/
def Confined (D S : Signal → Prop) (ts : List Expr) : Prop :=
  ∀ t ∈ ts, (t.isPlace = true ∨ ∀ s, S s) ∧ Within D t.drives

mutual
theorem admits_of_confined (s : Stmt) (confined : Confined D S s.targets)
    (sources : Within S s.sources) : s.Admits D (fun e => Within S e.mentions) True := by
  match s with
  | .assign lhs rhs =>
    obtain ⟨selectors, value⟩ := List.forall_mem_append.mp sources
    obtain ⟨place, drives⟩ := confined lhs (.head _)
    exact ⟨lhs.admits_of_place place drives selectors, value⟩
  | .branch cond yes no =>
    obtain ⟨hcond, inside⟩ := List.forall_mem_append.mp sources
    obtain ⟨ofYes, ofNo⟩ := List.forall_mem_append.mp inside
    obtain ⟨yesConfined, noConfined⟩ := List.forall_mem_append.mp confined
    exact ⟨hcond, admitsAll_of_confined yes yesConfined ofYes,
      admitsAll_of_confined no noConfined ofNo⟩
  | .select test arms =>
    obtain ⟨htest, inside⟩ := List.forall_mem_append.mp sources
    exact ⟨htest, admitsArms_of_confined arms confined inside⟩
  | .nextState _ | .nextValue _ _ => exact trivial

theorem admitsAll_of_confined (ss : List Stmt) (confined : Confined D S (targetsOf ss))
    (sources : Within S (sourcesOf ss)) : AdmitsAll D (fun e => Within S e.mentions) True ss := by
  match ss with
  | [] => exact trivial
  | s :: ss =>
    obtain ⟨first, later⟩ := List.forall_mem_append.mp confined
    obtain ⟨sources, sources'⟩ := List.forall_mem_append.mp sources
    exact ⟨admits_of_confined s first sources, admitsAll_of_confined ss later sources'⟩

theorem admitsArms_of_confined (arms : Arms) (confined : Confined D S (targetsOfArms arms))
    (sources : Within S (sourcesOfArms arms)) :
    AdmitsArms D (fun e => Within S e.mentions) True arms := by
  match arms with
  | .done => exact trivial
  | .otherwise body => exact admitsAll_of_confined body confined sources
  | .arm key body rest =>
    obtain ⟨first, later⟩ := List.forall_mem_append.mp confined
    obtain ⟨sources, sources'⟩ := List.forall_mem_append.mp sources
    exact ⟨admitsAll_of_confined body first sources, admitsArms_of_confined rest later sources'⟩
end

end Stmt

end Gateware
