import Gateware.Netlist.Resolve
import Gateware.Proofs.Dependence

/-!
# Lists of statements

What a list reads, drives and holds is what its statements do, each by itself. Resolving references
leaves no reference behind, and it does not change what is driven as long as no reset is a target.
-/
namespace Gateware

namespace Stmt

/-! ### Statement by statement -/

theorem targetsOf_eq (ss : List Stmt) : targetsOf ss = ss.flatMap targets := by
  induction ss with
  | nil => rfl
  | cons s ss ih => rw [targetsOf, ih, List.flatMap_cons]

theorem sourcesOf_eq (ss : List Stmt) : sourcesOf ss = ss.flatMap sources := by
  induction ss with
  | nil => rfl
  | cons s ss ih => rw [sourcesOf, ih, List.flatMap_cons]

theorem exprsOf_eq (ss : List Stmt) : exprsOf ss = ss.flatMap exprs := by
  induction ss with
  | nil => rfl
  | cons s ss ih => rw [exprsOf, ih, List.flatMap_cons]

theorem mapExprsOf_eq (f : Expr → Expr) (ss : List Stmt) :
    mapExprsOf f ss = ss.map (mapExprs f) := by
  induction ss with
  | nil => rfl
  | cons s ss ih => rw [mapExprsOf, ih, List.map_cons]

theorem sugarOf?_eq_none_iff {ss : List Stmt} : sugarOf? ss = none ↔ ∀ s ∈ ss, s.sugar? = none := by
  induction ss with
  | nil => simp [sugarOf?]
  | cons s ss ih => simp [sugarOf?, Option.or_eq_none_iff, ih]

theorem drivenBy_iff {ss : List Stmt} {s : Signal} :
    Frame.DrivenBy (targetsOf ss) s ↔ s ∈ assigned ss := by
  simp [Frame.DrivenBy, assigned]

theorem mem_assigned {ss : List Stmt} {x : Signal} :
    x ∈ assigned ss ↔ ∃ s ∈ ss, x ∈ assigned [s] := by
  simp only [assigned, OrdSet.mem_ofList, targetsOf_eq, List.flatMap_cons, List.flatMap_nil,
    List.append_nil, List.mem_flatMap]
  constructor
  · rintro ⟨t, ⟨s, hs, ht⟩, hx⟩
    exact ⟨s, hs, t, ht, hx⟩
  · rintro ⟨s, hs, t, ht, hx⟩
    exact ⟨t, ⟨s, hs, ht⟩, hx⟩

theorem mem_assigned_append {ss ts : List Stmt} {x : Signal} :
    x ∈ assigned (ss ++ ts) ↔ x ∈ assigned ss ∨ x ∈ assigned ts := by
  rw [mem_assigned, @mem_assigned ss, @mem_assigned ts]
  simp only [List.mem_append, or_and_right, exists_or]

theorem mem_read {ss : List Stmt} {x : Signal} : x ∈ read ss ↔ ∃ s ∈ ss, x ∈ s.sources := by
  simp only [read, OrdSet.mem_ofList, sourcesOf_eq, List.mem_flatMap]

theorem targetFault?_eq_none_iff {ss : List Stmt} :
    targetFault? ss = none ↔ ∀ t ∈ targetsOf ss, t.isTarget = true := by
  simp [targetFault?]

/-! ### Reordered lists -/

section Perm

variable {ss ts : List Stmt} (perm : ts.Perm ss)

include perm

theorem assigned_perm : assigned ts = assigned ss :=
  OrdSet.ext_mem fun x => by
    rw [mem_assigned, @mem_assigned ss]
    simp only [perm.mem_iff]

theorem read_perm : read ts = read ss :=
  OrdSet.ext_mem fun x => by simp only [mem_read, perm.mem_iff]

theorem mem_targetsOf_perm {t : Expr} : t ∈ targetsOf ts ↔ t ∈ targetsOf ss := by
  simp only [targetsOf_eq, List.mem_flatMap, perm.mem_iff]

theorem mem_exprsOf_perm {e : Expr} : e ∈ exprsOf ts ↔ e ∈ exprsOf ss := by
  simp only [exprsOf_eq, List.mem_flatMap, perm.mem_iff]

end Perm

/-! ### Replaced values -/

theorem targetsOf_mapExprsOf (f : Expr → Expr) (ss : List Stmt) :
    targetsOf (mapExprsOf f ss) = (targetsOf ss).map f := by
  induction ss using listInduction <;>
    simp_all [mapExprsOf, mapExprs, mapExprsOfArms, targetsOf, targets, targetsOfArms]

theorem exprsOf_mapExprsOf (f : Expr → Expr) (ss : List Stmt) :
    exprsOf (mapExprsOf f ss) = (exprsOf ss).map f := by
  induction ss using listInduction <;>
    simp_all [mapExprsOf, mapExprs, mapExprsOfArms, exprsOf, exprs, exprsOfArms]

theorem exprs_mapExprs (f : Expr → Expr) (s : Stmt) : (s.mapExprs f).exprs = s.exprs.map f := by
  simpa [mapExprsOf, exprsOf] using exprsOf_mapExprsOf f [s]

theorem sugarOf?_mapExprsOf (f : Expr → Expr) (ss : List Stmt) :
    sugarOf? (mapExprsOf f ss) = (sugarOf? ss).map (mapExprs f) := by
  induction ss using listInduction <;>
    simp_all [mapExprsOf, mapExprs, mapExprsOfArms, sugarOf?, sugar?, sugarOfArms?, Option.map_or]

theorem targetsOf_subset_exprsOf (ss : List Stmt) : targetsOf ss ⊆ exprsOf ss := by
  induction ss using listInduction <;>
    grind [targetsOf, targets, targetsOfArms, exprsOf, exprs, exprsOfArms]

theorem mapExprsOf_of_fixed {f : Expr → Expr} (ss : List Stmt) (fixed : ∀ e ∈ exprsOf ss, f e = e) :
    mapExprsOf f ss = ss := by
  induction ss using listInduction <;>
    simp_all [mapExprsOf, mapExprs, mapExprsOfArms, exprsOf, exprs, exprsOfArms, or_imp, forall_and]

/-! ### Leaves -/

theorem leavesOf_eq (ss : List Stmt) : leavesOf ss = ss.flatMap leaves := by
  induction ss with
  | nil => rfl
  | cons s ss ih => rw [leavesOf, ih, List.flatMap_cons]

/-- Neither a branch nor a selection. -/
def isLeaf : Stmt → Bool
  | .branch .. => false
  | .select .. => false
  | _ => true

/-- A leaf among statements with these targets and sources. -/
structure LeafAmong (ts : List Expr) (xs : List Signal) (u : Stmt) : Prop where
  leaf : u.isLeaf = true
  targets : u.targets ⊆ ts
  sources : u.sources ⊆ xs

theorem leafAmong_leavesOf (ss : List Stmt) :
    ∀ u ∈ leavesOf ss, LeafAmong (targetsOf ss) (sourcesOf ss) u := by
  induction ss using listInduction <;>
    grind [leavesOf, leaves, leavesOfArms, targetsOf, targets, targetsOfArms, sourcesOf, sources,
      sourcesOfArms, LeafAmong, isLeaf]

/-- The expressions of a leaf are expressions of the statements around it. -/
theorem exprs_leavesOf (ss : List Stmt) {u : Stmt} (hu : u ∈ leavesOf ss) :
    u.exprs ⊆ exprsOf ss := by
  induction ss using listInduction <;>
    grind [leavesOf, leaves, leavesOfArms, exprsOf, exprs, exprsOfArms]

end Stmt

/-- A reference stands for a signal, or for a zero. -/
theorem DomainRef.resolve_ok {domains : List ClockDomain} {r : DomainRef} {e : Expr}
    (h : r.resolve domains = .ok e) : (∃ s, e = .signal s) ∨ e = .sized 0 (.unsigned 1) := by
  cases r with
  | clock d =>
    simp only [DomainRef.resolve] at h
    split at h
    · cases h
      exact .inl ⟨_, rfl⟩
    · cases h
  | reset d orZero =>
    simp only [DomainRef.resolve] at h
    split at h
    · cases h
    · split at h
      · cases h
        exact .inl ⟨_, rfl⟩
      · split at h
        · cases h
          exact .inr rfl
        · cases h

namespace Expr

/-! ### Resolved references -/

theorem refs_bindRefs (f : DomainRef → Expr) (e : Expr) :
    (e.bindRefs f).refs = e.refs.flatMap fun r => (f r).refs := by
  induction e with
  | literal | signal => rfl
  | ref r => rw [bindRefs, refs, List.flatMap_singleton]
  | concat ps ih | mux _ ps _ ih =>
    simp only [bindRefs, refs, refsOf_eq, bindRefsOf_eq_map, List.flatMap_map, List.flatMap_append,
      List.flatMap_assoc, List.flatMap_congr ih, *]
  | _ => simp only [bindRefs, refs, List.flatMap_append, *]

/-- Only what stands for the references at hand matters. -/
theorem bindRefs_congr {f g : DomainRef → Expr} (e : Expr) (same : ∀ r ∈ e.refs, f r = g r) :
    e.bindRefs f = e.bindRefs g := by
  induction e with
  | literal | signal => rfl
  | ref r => exact same r (.head _)
  | concat ps ih | mux _ ps _ ih =>
    simp only [refs, refsOf_eq, List.forall_mem_append, List.forall_mem_flatMap] at same
    have parts : ps.map (bindRefs f) = ps.map (bindRefs g) :=
      List.map_congr_left fun p hp => ih p hp (by grind)
    simp_all [bindRefs, bindRefsOf_eq_map]
  | _ => simp_all [bindRefs, refs]

mutual
/-- Whether a reference stands where an assignment to the expression stores. -/
def drivesRef : Expr → Bool
  | .ref _ => true
  | .slice a _ _ => a.drivesRef
  | .concat ps => drivesRefOf ps
  | .mux _ cs => drivesRefOf cs
  | _ => false

def drivesRefOf : List Expr → Bool
  | [] => false
  | p :: ps => p.drivesRef || drivesRefOf ps
end

theorem drivesRefOf_eq_false {ps : List Expr} :
    drivesRefOf ps = false ↔ ∀ p ∈ ps, p.drivesRef = false := by
  induction ps with
  | nil => simp [drivesRefOf]
  | cons p ps ih => rw [drivesRefOf, Bool.or_eq_false_iff, ih, List.forall_mem_cons]

theorem isPlace_bindRefs {f : DomainRef → Expr} (places : ∀ r, (f r).isPlace = true) (t : Expr)
    (target : t.isTarget = true) : (t.bindRefs f).isPlace = true := by
  induction t with
  | signal s => rfl
  | ref r => exact places r
  | slice _ _ _ ih => exact ih target
  | concat ps ih | mux _ ps _ ih =>
    rw [bindRefs, isPlace, arePlaces_iff, bindRefsOf_eq_map, List.forall_mem_map]
    exact fun p hp => ih p hp (isTarget_of_mem target p hp)
  | literal | unary | binary | replicate => simp [isTarget] at target

theorem target_bindRefs (f : DomainRef → Expr) (t : Expr) (plain : t.drivesRef = false) :
    (t.bindRefs f).isTarget = t.isTarget ∧ (t.bindRefs f).drives = t.drives := by
  induction t with
  | signal | literal | unary | binary | replicate => exact ⟨rfl, rfl⟩
  | ref r => simp [drivesRef] at plain
  | slice _ _ _ ih => exact ih plain
  | concat ps ih | mux _ ps _ ih =>
    have parts := fun p hp => ih p hp (drivesRefOf_eq_false.mp plain p hp)
    simp only [bindRefs, isTarget, drives, bindRefsOf_eq_map, areTargets_eq, drivesOf_eq,
      List.isEmpty_map, List.map_map, List.flatMap_map, Function.comp_def,
      List.map_congr_left fun p hp => (parts p hp).1,
      List.flatMap_congr fun p hp => (parts p hp).2, and_self]

theorem drivesRef_of_refs (t : Expr) (plain : t.refs = []) : t.drivesRef = false := by
  induction t with
  | literal | signal | unary | binary | replicate => rfl
  | ref r => simp [refs] at plain
  | slice _ _ _ ih => exact ih plain
  | concat ps ih | mux _ ps _ ih =>
    simp only [refs, refsOf_eq, List.append_eq_nil_iff, List.flatMap_eq_nil_iff] at plain
    exact drivesRefOf_eq_false.mpr fun p hp => ih p hp (by simp_all)

theorem bindRefs_of_refs (f : DomainRef → Expr) (e : Expr) (plain : e.refs = []) :
    e.bindRefs f = e := by
  refine (e.bindRefs_congr fun r hr => ?_).trans e.bindRefs_ref
  rw [plain] at hr
  cases hr

/-- Without domains no reference stands for anything. -/
theorem refs_of_dangling?_nil {es : List Expr} (h : dangling? [] es = none) :
    ∀ e ∈ es, e.refs = [] := by
  intro e he
  refine List.eq_nil_iff_forall_not_mem.mpr fun r hr => ?_
  have known := List.findSome?_eq_none_iff.mp h r (List.mem_flatMap.mpr ⟨e, he, hr⟩)
  cases r <;> simp [DomainRef.fault?, DomainRef.resolve] at known

variable (domains : List ClockDomain)

theorem refs_resolved (e : Expr) : (e.resolved domains).refs = [] := by
  rw [resolved, refs_bindRefs, List.flatMap_eq_nil_iff]
  intro r _
  cases h : r.resolve domains with
  | error fault => rfl
  | ok e => rcases DomainRef.resolve_ok h with ⟨s, rfl⟩ | rfl <;> rfl

theorem isPlace_resolved {t : Expr} (target : t.isTarget = true) :
    (t.resolved domains).isPlace = true := by
  refine isPlace_bindRefs (fun r => ?_) t target
  cases h : r.resolve domains with
  | error fault => rfl
  | ok e => rcases DomainRef.resolve_ok h with ⟨s, rfl⟩ | rfl <;> rfl

theorem isTarget_resolved {t : Expr} (plain : t.drivesRef = false) :
    (t.resolved domains).isTarget = t.isTarget := (target_bindRefs _ t plain).1

theorem drives_resolved {t : Expr} (plain : t.drivesRef = false) :
    (t.resolved domains).drives = t.drives := (target_bindRefs _ t plain).2

end Expr

namespace Stmt

variable {domains : List ClockDomain} {ss : List Stmt}

theorem assigned_resolved (plain : ∀ t ∈ targetsOf ss, t.drivesRef = false) :
    assigned (mapExprsOf (Expr.resolved domains) ss) = assigned ss := by
  refine OrdSet.ext_mem fun x => ?_
  simp only [assigned, OrdSet.mem_ofList, targetsOf_mapExprsOf, List.flatMap_map, List.mem_flatMap]
  constructor
  · rintro ⟨t, ht, hx⟩
    exact ⟨t, ht, Expr.drives_resolved domains (plain t ht) ▸ hx⟩
  · rintro ⟨t, ht, hx⟩
    exact ⟨t, ht, (Expr.drives_resolved domains (plain t ht)).symm ▸ hx⟩

/-- Resolving references adds to what is assigned only where a reference is assigned to. -/
theorem mem_assigned_resolved {x : Signal}
    (h : x ∈ assigned (mapExprsOf (Expr.resolved domains) ss)) :
    x ∈ assigned ss ∨ ∃ t ∈ targetsOf ss, t.drivesRef = true ∧ x ∈ (t.resolved domains).drives := by
  simp only [assigned, OrdSet.mem_ofList, targetsOf_mapExprsOf, List.flatMap_map,
    List.mem_flatMap] at h ⊢
  obtain ⟨t, ht, hx⟩ := h
  cases plain : t.drivesRef with
  | true => exact .inr ⟨t, ht, plain, hx⟩
  | false => exact .inl ⟨t, ht, Expr.drives_resolved domains plain ▸ hx⟩

end Stmt

/-! ### Statements of a netlist -/

namespace Netlist

theorem mem_stmts {n : Netlist} {s : Stmt} :
    s ∈ n.stmts ↔ s ∈ n.comb ∨ ∃ d ss, n.sync.get? d = some ss ∧ s ∈ ss := by
  simp only [stmts, OrdMap.values, List.mem_append, List.mem_flatten, List.mem_map,
    OrdMap.get?_eq_some_iff]
  constructor
  · rintro (comb | ⟨_, ⟨⟨d, ss⟩, entry, rfl⟩, member⟩)
    · exact .inl comb
    · exact .inr ⟨d, ss, entry, member⟩
  · rintro (comb | ⟨d, ss, entry, member⟩)
    · exact .inl comb
    · exact .inr ⟨ss, ⟨(d, ss), entry, rfl⟩, member⟩

end Netlist

end Gateware
