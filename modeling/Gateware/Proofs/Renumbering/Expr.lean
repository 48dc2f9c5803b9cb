import Gateware.Proofs.Mentions
import Gateware.Proofs.Statements
import Mathlib.Order.Monotone.Basic

/-!
# Expressions about renumbered signals

The number of a signal says who is older and which two signals are the same, nothing else. Giving
signals new numbers changes neither the shape of an expression nor its text, and it commutes with
everything that takes expressions apart: slices, extensions, normal targets, references, and lists
of the signals in them.

## Main results

* `extract_renumber`, `fit_renumber`, `normal_renumber`: cut or rearranged expressions.
* `renumber_injective`: increasing numbers keep expressions apart.
-/
namespace Gateware

/-! ### Numbers -/

/-- New numbers for signals and cells. -/
structure Numbering where
  signal : Nat → Nat
  cell : Nat → Nat

/-- Older stays older. -/
class Numbering.Increasing (r : Numbering) : Prop where
  signal : StrictMono r.signal
  cell : StrictMono r.cell

/-- The numbers as they are. -/
def Numbering.same : Numbering := ⟨id, id⟩

instance : Numbering.same.Increasing := ⟨strictMono_id, strictMono_id⟩

variable {r : Numbering}

namespace Signal

/-- The same signal under another number. -/
def renumber (r : Numbering) (s : Signal) : Signal := { s with id := ⟨r.signal s.id.index⟩ }

@[simp] theorem index_renumber (s : Signal) : (s.renumber r).id.index = r.signal s.id.index := rfl

@[simp] theorem name_renumber (s : Signal) : (s.renumber r).name = s.name := rfl

@[simp] theorem shape_renumber (s : Signal) : (s.renumber r).shape = s.shape := rfl

@[simp] theorem reset_renumber (s : Signal) : (s.renumber r).reset = s.reset := rfl

@[simp] theorem resetLess_renumber (s : Signal) : (s.renumber r).resetLess = s.resetLess := rfl

@[simp] theorem width_renumber (s : Signal) : (s.renumber r).width = s.width := rfl

/-- Increasing numbers keep the order of signals. -/
theorem compare_renumber [r.Increasing] (a b : Signal) :
    compare (a.renumber r) (b.renumber r) = compare a b := by
  have index : compare (r.signal a.id.index) (r.signal b.id.index)
      = compare a.id.index b.id.index := by
    rcases lt_trichotomy a.id.index b.id.index with lt | eq | gt
    · rw [compare_lt_iff_lt.mpr lt, compare_lt_iff_lt.mpr (Numbering.Increasing.signal lt)]
    · rw [eq, compare_eq_iff_eq.mpr rfl, compare_eq_iff_eq.mpr rfl]
    · rw [compare_gt_iff_gt.mpr gt, compare_gt_iff_gt.mpr (Numbering.Increasing.signal gt)]
  change order (a.renumber r) (b.renumber r) = order a b
  simp only [order, compareLex, compareOn, index_renumber, index, name_renumber, shape_renumber,
    reset_renumber, resetLess_renumber]

theorem renumber_injective [r.Increasing] : Function.Injective (renumber r) := by
  intro a b same
  have eq : compare a b = .eq := by
    rw [← compare_renumber (r := r), same]
    exact Std.ReflOrd.compare_self
  exact Std.LawfulEqOrd.eq_of_compare eq

end Signal

namespace Expr

mutual
/-- The same expression about renumbered signals. -/
def renumber (r : Numbering) : Expr → Expr
  | .literal c => .literal c
  | .signal s => .signal (s.renumber r)
  | .ref d => .ref d
  | .unary op a => .unary op (a.renumber r)
  | .binary op a b => .binary op (a.renumber r) (b.renumber r)
  | .slice a i j => .slice (a.renumber r) i j
  | .concat ps => .concat (renumberAll r ps)
  | .replicate a n => .replicate (a.renumber r) n
  | .mux s cs => .mux (s.renumber r) (renumberAll r cs)

def renumberAll (r : Numbering) : List Expr → List Expr
  | [] => []
  | p :: ps => p.renumber r :: renumberAll r ps
end

theorem renumberAll_eq (ps : List Expr) : renumberAll r ps = ps.map (renumber r) := by
  induction ps with
  | nil => rfl
  | cons p ps ih => rw [renumberAll, ih, List.map_cons]

@[simp] theorem length_renumberAll (ps : List Expr) : (renumberAll r ps).length = ps.length := by
  rw [renumberAll_eq, List.length_map]

mutual
theorem renumber_inj [r.Increasing] (a b : Expr) (h : a.renumber r = b.renumber r) : a = b := by
  match a, b with
  | .literal _, .literal _ | .ref _, .ref _ => simpa only [renumber] using h
  | .signal s, .signal t =>
    rw [Signal.renumber_injective (signal.inj h)]
  | .unary o a, .unary p b =>
    obtain ⟨rfl, same⟩ := unary.inj h
    rw [renumber_inj a b same]
  | .binary o a b, .binary p c d =>
    obtain ⟨rfl, left, right⟩ := binary.inj h
    rw [renumber_inj a c left, renumber_inj b d right]
  | .slice a i j, .slice b k l =>
    obtain ⟨same, rfl, rfl⟩ := slice.inj h
    rw [renumber_inj a b same]
  | .concat ps, .concat qs => rw [renumberAll_inj ps qs (concat.inj h)]
  | .replicate a m, .replicate b n =>
    obtain ⟨same, rfl⟩ := replicate.inj h
    rw [renumber_inj a b same]
  | .mux s cs, .mux t ds =>
    obtain ⟨same, choices⟩ := mux.inj h
    rw [renumber_inj s t same, renumberAll_inj cs ds choices]

theorem renumberAll_inj [r.Increasing] (ps qs : List Expr)
    (h : renumberAll r ps = renumberAll r qs) : ps = qs := by
  match ps, qs with
  | [], [] => rfl
  | p :: ps, q :: qs =>
    obtain ⟨head, tail⟩ := List.cons.inj h
    rw [renumber_inj p q head, renumberAll_inj ps qs tail]
end

theorem renumber_injective [r.Increasing] : Function.Injective (renumber r) := renumber_inj

/-! ### New numbers twice -/

variable {p q : Numbering}

theorem renumber_trans (e : Expr)
    (along : ∀ s ∈ e.mentions, (s.renumber p).renumber q = s.renumber r) :
    (e.renumber p).renumber q = e.renumber r := by
  induction e with
  | literal | ref => rfl
  | signal s => simp only [renumber, along s List.mem_cons_self]
  | unary _ _ ih | slice _ _ _ ih | replicate _ _ ih => simp only [renumber, ih along]
  | binary _ _ _ ia ib =>
    simp only [mentions, List.forall_mem_append] at along
    simp only [renumber, ia along.1, ib along.2]
  | concat ps ih =>
    simp only [mentions, mentionsOf_eq, List.forall_mem_flatMap] at along
    simp only [renumber, renumberAll_eq, List.map_map, concat.injEq]
    exact List.map_congr_left fun p hp => ih p hp (along p hp)
  | mux s cs is ih =>
    simp only [mentions, mentionsOf_eq, List.forall_mem_append, List.forall_mem_flatMap] at along
    simp only [renumber, renumberAll_eq, List.map_map, mux.injEq, is along.1, true_and]
    exact List.map_congr_left fun c hc => ih c hc (along.2 c hc)

/-! ### What does not show numbers -/

@[simp] theorem literal?_renumber (e : Expr) : (e.renumber r).literal? = e.literal? := by
  cases e <;> rfl

@[simp] theorem shape_renumber (e : Expr) : (e.renumber r).shape = e.shape := by
  induction e with
  | literal | signal | ref => rfl
  | concat ps ih | mux _ ps _ ih =>
    simp only [renumber, shape, renumberAll_eq, shapes_eq_map, List.map_map, Function.comp_def,
      List.map_congr_left ih]
  | _ => simp only [renumber, shape, literal?_renumber, *]

@[simp] theorem width_renumber (e : Expr) : (e.renumber r).width = e.width := by
  rw [width, width, shape_renumber]

@[simp] theorem width_concat_renumberAll (ps : List Expr) :
    (concat (renumberAll r ps)).width = (concat ps).width :=
  width_renumber (concat ps)

@[simp] theorem text_renumber (e : Expr) : (e.renumber r).text = e.text := by
  induction e with
  | literal | signal | ref => rfl
  | unary op a ih => cases op <;> rw [renumber, text, text, ih]
  | concat ps ih | mux _ ps _ ih =>
    simp only [renumber, text, renumberAll_eq, texts_eq_map, List.map_map, Function.comp_def,
      List.map_congr_left ih, *]
  | _ => simp only [renumber, text, *]

@[simp] theorem refs_renumber (e : Expr) : (e.renumber r).refs = e.refs := by
  induction e with
  | literal | signal | ref => rfl
  | concat ps ih | mux _ ps _ ih =>
    simp only [renumber, refs, renumberAll_eq, refsOf_eq, List.flatMap_map,
      List.flatMap_congr ih, *]
  | _ => simp only [renumber, refs, *]

@[simp] theorem isTarget_renumber (e : Expr) : (e.renumber r).isTarget = e.isTarget := by
  induction e with
  | literal | signal | ref | unary | binary | replicate => rfl
  | slice a i j ih => rw [renumber, isTarget, isTarget, ih]
  | concat ps ih | mux _ ps _ ih =>
    simp only [renumber, isTarget, areTargets_eq, renumberAll_eq, List.isEmpty_map, List.map_map,
      Function.comp_def, List.map_congr_left ih]

@[simp] theorem hasChoice_renumber (e : Expr) : (e.renumber r).hasChoice = e.hasChoice := by
  induction e with
  | literal | signal | ref | unary | binary | replicate | mux => rfl
  | slice a i j ih => rw [renumber, hasChoice, hasChoice, ih]
  | concat ps ih =>
    simp only [renumber, hasChoice, anyChoice_eq, renumberAll_eq, List.map_map, Function.comp_def,
      List.map_congr_left ih]

@[simp] theorem anyChoice_renumberAll (ps : List Expr) :
    anyChoice (renumberAll r ps) = anyChoice ps := hasChoice_renumber (concat ps)

/-! ### Signals in expressions -/

theorem drives_renumber (e : Expr) : (e.renumber r).drives = e.drives.map (Signal.renumber r) := by
  induction e with
  | literal | signal | ref | unary | binary | replicate => rfl
  | slice a i j ih => rw [renumber, drives, drives, ih]
  | concat ps ih | mux _ ps _ ih =>
    simp only [renumber, drives, drivesOf_eq, renumberAll_eq, List.flatMap_map, List.map_flatMap,
      List.flatMap_congr ih]

theorem mentions_renumber (e : Expr) :
    (e.renumber r).mentions = e.mentions.map (Signal.renumber r) := by
  induction e with
  | literal | signal | ref => rfl
  | concat ps ih | mux _ ps _ ih =>
    simp only [renumber, mentions, mentionsOf_eq, renumberAll_eq, List.flatMap_map,
      List.map_flatMap, List.map_append, List.flatMap_congr ih, *]
  | _ => simp only [renumber, mentions, List.map_append, *]

theorem selectors_renumber (e : Expr) :
    (e.renumber r).selectors = e.selectors.map (Signal.renumber r) := by
  induction e with
  | literal | signal | ref | unary | binary | replicate => rfl
  | slice a i j ih => rw [renumber, selectors, selectors, ih]
  | concat ps ih | mux _ ps _ ih =>
    simp only [renumber, selectors, selectorsOf_eq, renumberAll_eq, List.flatMap_map,
      List.map_flatMap, List.map_append, List.flatMap_congr ih, mentions_renumber]

/-! ### References and faults -/

theorem bindRefs_renumber (f : DomainRef → Expr) (e : Expr) :
    (e.renumber r).bindRefs (fun d => (f d).renumber r) = (e.bindRefs f).renumber r := by
  induction e with
  | literal | signal | ref => rfl
  | concat ps ih | mux _ ps _ ih =>
    simp only [renumber, bindRefs, bindRefsOf_eq_map, renumberAll_eq, List.map_map,
      Function.comp_def, List.map_congr_left ih, *]
  | _ => simp only [renumber, bindRefs, *]

theorem nodes_renumber (e : Expr) : (e.renumber r).nodes = e.nodes.map (renumber r) := by
  induction e with
  | literal | signal | ref => rfl
  | concat ps ih | mux _ ps _ ih =>
    simp only [renumber, nodes, nodesOf_eq, renumberAll_eq, List.flatMap_map, List.map_cons,
      List.map_append, List.map_flatMap, List.flatMap_congr ih, *]
  | _ => simp only [renumber, nodes, List.map_cons, List.map_append, *]

theorem nodeFault_renumber (e : Expr) : nodeFault (e.renumber r) = nodeFault e := by
  cases e with
  | literal | signal | ref | unary | slice | concat | mux => rfl
  | binary op a b =>
    cases b with
    | literal c =>
      have same := text_renumber (r := r) (.binary op a (.literal c))
      simp only [renumber] at same
      simp only [renumber, nodeFault, same]
    | _ => rfl
  | replicate a n =>
    cases n with
    | zero =>
      have same := text_renumber (r := r) (.replicate a 0)
      simp only [renumber] at same
      simp only [renumber, nodeFault, same]
    | succ n => rfl

@[simp] theorem fault?_renumber (e : Expr) : (e.renumber r).fault? = e.fault? := by
  simp only [fault?, nodes_renumber, List.findSome?_map, Function.comp_def, nodeFault_renumber]

/-! ### Bits of expressions -/

theorem join_renumberAll (ps : List Expr) : join (renumberAll r ps) = (join ps).renumber r := by
  match ps with
  | [] | [_] | _ :: _ :: _ => rfl

mutual
theorem extract_renumber (e : Expr) (start stop : Nat) :
    (e.renumber r).extract start stop = (e.extract start stop).renumber r := by
  by_cases whole : start = 0 ∧ stop = e.width
  · rw [extract_whole whole, extract_whole (by rwa [width_renumber])]
  have whole' : ¬ (start = 0 ∧ stop = (e.renumber r).width) := by rwa [width_renumber]
  cases e with
  | concat ps =>
    rw [renumber] at whole' ⊢
    rw [extract, extract, if_neg whole, if_neg whole', extractParts_renumberAll ps,
      join_renumberAll]
  | literal | ref =>
    rw [renumber, extract, if_neg whole]
    rfl
  | signal | unary | binary | slice | replicate | mux =>
    rw [renumber] at whole' ⊢
    rw [extract, extract, if_neg whole, if_neg whole']
    rfl

theorem extractParts_renumberAll (ps : List Expr) (lo start stop : Nat) :
    extractParts (renumberAll r ps) lo start stop =
      renumberAll r (extractParts ps lo start stop) := by
  cases ps with
  | nil => rfl
  | cons p ps =>
    simp only [renumberAll, extractParts, width_renumber]
    split
    · rw [renumberAll, extract_renumber p, extractParts_renumberAll ps]
    · rw [extractParts_renumberAll ps]
end

theorem extension_renumber (e : Expr) (pad : Nat) :
    (e.renumber r).extension pad = (e.extension pad).renumber r := by
  simp only [extension, shape_renumber, width_renumber]
  split
  · rw [extract_renumber, renumber]
  · rfl

theorem fit_renumber (e : Expr) (width : Nat) :
    (e.renumber r).fit width = (e.fit width).renumber r := by
  simp only [fit, width_renumber, literal?_renumber]
  split
  · rfl
  cases e.literal? with
  | some c => rfl
  | none =>
    simp only
    split
    · rw [extract_renumber]
    · rw [extension_renumber, renumber, renumberAll, renumberAll, renumberAll]

theorem unfit_renumber (e : Expr) (width : Nat) : (e.renumber r).unfit width = e.unfit width := by
  simp only [unfit, width_renumber, shape_renumber, literal?_renumber]

/-! ### Normal targets -/

mutual
theorem narrow_renumber (e : Expr) (start stop : Nat) :
    (e.renumber r).narrow start stop = (e.narrow start stop).renumber r := by
  by_cases whole : start = 0 ∧ stop = e.width
  · rw [narrow_whole whole, narrow_whole (by rwa [width_renumber])]
  have whole' : ¬ (start = 0 ∧ stop = (e.renumber r).width) := by rwa [width_renumber]
  cases e with
  | concat ps =>
    rw [renumber] at whole' ⊢
    rw [narrow, narrow, if_neg whole, if_neg whole', narrowParts_renumberAll ps, join_renumberAll]
  | mux s cs =>
    rw [renumber] at whole' ⊢
    rw [narrow, narrow, if_neg whole, if_neg whole', narrowAll_renumberAll cs, renumber]
  -- all other expressions are cut like values
  | literal | ref =>
    rw [renumber, narrow, if_neg whole, ← extract_renumber]
    rfl
  | signal | unary | binary | replicate =>
    rw [renumber] at whole' ⊢
    rw [narrow, narrow, if_neg whole, if_neg whole', ← extract_renumber]
    rfl
  | slice a base top =>
    rw [renumber] at whole' ⊢
    rw [narrow, narrow, if_neg whole, if_neg whole', extract_renumber]

theorem narrowParts_renumberAll (ps : List Expr) (lo start stop : Nat) :
    narrowParts (renumberAll r ps) lo start stop =
      renumberAll r (narrowParts ps lo start stop) := by
  cases ps with
  | nil => rfl
  | cons p ps =>
    simp only [renumberAll, narrowParts, width_renumber]
    split
    · rw [renumberAll, narrow_renumber p, narrowParts_renumberAll ps]
    · rw [narrowParts_renumberAll ps]

theorem narrowAll_renumberAll (ps : List Expr) (start stop : Nat) :
    narrowAll (renumberAll r ps) start stop = renumberAll r (narrowAll ps start stop) := by
  cases ps with
  | nil => rfl
  | cons p ps =>
    rw [renumberAll, narrowAll, narrowAll, renumberAll, narrow_renumber p, narrowAll_renumberAll ps]
end

theorem sliceNormal_renumber (e : Expr) (start stop : Nat) :
    (e.renumber r).sliceNormal start stop = (e.sliceNormal start stop).renumber r := by
  cases e with
  | concat ps => exact narrow_renumber (.concat ps) start stop
  | mux s cs => rw [renumber, sliceNormal, sliceNormal, renumber, narrowAll_renumberAll]
  | literal c => exact extract_renumber (.literal c) start stop
  | signal s => exact extract_renumber (.signal s) start stop
  | ref d => exact extract_renumber (.ref d) start stop
  | unary op a => exact extract_renumber (.unary op a) start stop
  | binary op a b => exact extract_renumber (.binary op a b) start stop
  | slice a i j => exact extract_renumber (.slice a i j) start stop
  | replicate a n => exact extract_renumber (.replicate a n) start stop

theorem normal_renumber (e : Expr) : (e.renumber r).normal = e.normal.renumber r := by
  induction e with
  | literal | signal | ref | unary | binary | replicate => rfl
  | slice a start stop ih => rw [renumber, normal, normal, ih, sliceNormal_renumber]
  | concat ps ih | mux _ ps _ ih =>
    simp only [renumber, normal, normalAll_eq, renumberAll_eq, List.map_map, Function.comp_def,
      List.map_congr_left ih]

end Expr

end Gateware
