import Gateware.Expr.Normal
import Gateware.Proofs.Ordered
import Gateware.Stmt.Sets

/-!
# Signals of derived expressions

Cutting, extending and rearranging expressions brings in no new signal. Cutting and extending keep
more than that, which is said once (`Expr.Hereditary`).
-/
namespace Gateware

/-- All signals of a list are in a set. -/
abbrev Within (S : Signal → Prop) (xs : List Signal) : Prop := ∀ s ∈ xs, S s

theorem append_subset_append {α : Type} {as bs cs ds : List α} (left : as ⊆ bs) (right : cs ⊆ ds) :
    as ++ cs ⊆ bs ++ ds :=
  List.append_subset.mpr
    ⟨List.subset_append_of_subset_left ds left, List.subset_append_of_subset_right bs right⟩

theorem flatMap_subset_flatMap {α β : Type} {as : List α} {f g : α → List β}
    (h : ∀ a ∈ as, f a ⊆ g a) : as.flatMap f ⊆ as.flatMap g := by
  intro b hb
  obtain ⟨a, ha, inside⟩ := List.mem_flatMap.mp hb
  exact List.mem_flatMap.mpr ⟨a, ha, h a ha inside⟩

namespace Expr

theorem drives_subset_mentions (e : Expr) : e.drives ⊆ e.mentions := by
  induction e with
  | signal => exact fun _ => id
  | slice _ _ _ ih => exact ih
  | concat ps ih =>
    rw [drives, mentions, drivesOf_eq, mentionsOf_eq]
    exact flatMap_subset_flatMap ih
  | mux s cs _ ih =>
    rw [drives, mentions, drivesOf_eq, mentionsOf_eq]
    exact List.subset_append_of_subset_right _ (flatMap_subset_flatMap ih)
  | literal | ref | unary | binary | replicate => exact List.nil_subset _

theorem selectors_subset_mentions (e : Expr) : e.selectors ⊆ e.mentions := by
  induction e with
  | slice _ _ _ ih => exact ih
  | concat ps ih =>
    rw [selectors, mentions, selectorsOf_eq, mentionsOf_eq]
    exact flatMap_subset_flatMap ih
  | mux s cs _ ih =>
    rw [selectors, mentions, selectorsOf_eq, mentionsOf_eq]
    exact append_subset_append (fun _ => id) (flatMap_subset_flatMap ih)
  | literal | signal | ref | unary | binary | replicate => exact List.nil_subset _

end Expr

namespace Stmt

/-- What is read is mentioned. -/
theorem sourcesOf_subset_mentions (ss : List Stmt) :
    sourcesOf ss ⊆ (exprsOf ss).flatMap Expr.mentions := by
  simp only [List.subset_def, List.mem_flatMap]
  induction ss using listInduction with
  | assign lhs | nextValue lhs =>
    have := lhs.selectors_subset_mentions
    grind [sourcesOf, sources, exprsOf, exprs]
  | _ =>
    simp_all only [sourcesOf, sources, sourcesOfArms, exprsOf, exprs, exprsOfArms, List.mem_append]
    grind

end Stmt

namespace Expr

/-! ### Bits of expressions -/

theorem mentions_join (ps : List Expr) : (join ps).mentions = mentionsOf ps := by
  match ps with
  | [] | _ :: _ :: _ => rfl
  | [p] => rw [join, mentionsOf, mentionsOf, List.append_nil]

theorem extract_whole {e : Expr} {start stop : Nat} (whole : start = 0 ∧ stop = e.width) :
    e.extract start stop = e := by
  cases e <;> rw [extract, if_pos whole]

/-- A property that cutting and joining keep. It looks at signals and at slices only, and a slice
without bits has it only if `T`. -/
structure Hereditary (P : Expr → Prop) (T : Prop) : Prop where
  literal (c : Literal) : P (.literal c)
  binary {op : BinaryOp} {a b : Expr} : P a → P b → P (.binary op a b)
  replicate {a : Expr} {n : Nat} : P a → P (.replicate a n)
  slice {a : Expr} {start stop : Nat} : P (.slice a start stop) ↔ P a ∧ (start < stop ∨ T)
  concat {ps : List Expr} : P (.concat ps) ↔ ∀ p ∈ ps, P p
  mux {s : Expr} {cs : List Expr} : P (.mux s cs) ↔ P s ∧ ∀ c ∈ cs, P c

namespace Hereditary

variable {P : Expr → Prop} {T : Prop}

theorem join (kept : Hereditary P T) {ps : List Expr} (h : ∀ p ∈ ps, P p) : P (Expr.join ps) := by
  match ps with
  | [] | _ :: _ :: _ => exact kept.concat.mpr h
  | [p] => exact h p (.head _)

mutual
theorem extract (kept : Hereditary P T) (e : Expr) (h : P e) {start stop : Nat}
    (some : start < stop ∨ T) : P (e.extract start stop) := by
  by_cases whole : start = 0 ∧ stop = e.width
  · rwa [extract_whole whole]
  cases e with
  | literal c =>
    rw [Expr.extract, if_neg whole]
    exact kept.literal _
  | slice a base top =>
    rw [Expr.extract, if_neg whole]
    exact kept.slice.mpr ⟨(kept.slice.mp h).1, some.imp_left (Nat.add_lt_add_left · base)⟩
  | concat ps =>
    rw [Expr.extract, if_neg whole]
    exact kept.join (kept.extractParts ps (kept.concat.mp h) 0 some)
  | signal | ref | unary | binary | replicate | mux =>
    rw [Expr.extract, if_neg whole]
    exact kept.slice.mpr ⟨h, some⟩

theorem extractParts (kept : Hereditary P T) (ps : List Expr) (h : ∀ p ∈ ps, P p) (lo : Nat)
    {start stop : Nat} (some : start < stop ∨ T) :
    ∀ p ∈ Expr.extractParts ps lo start stop, P p := by
  cases ps with
  | nil => exact h
  | cons p ps =>
    obtain ⟨first, others⟩ := List.forall_mem_cons.mp h
    have rest := kept.extractParts ps others (lo + p.width) some
    simp only [Expr.extractParts]
    split
    next meets =>
      refine List.forall_mem_cons.mpr ⟨?_, rest⟩
      -- A part without bits is taken whole; of any other at least one bit is covered.
      rcases Nat.eq_zero_or_pos p.width with none | bits
      · rwa [extract_whole (by omega)]
      · exact kept.extract p first (some.imp_left (by omega))
    next => exact rest
end

theorem extension (kept : Hereditary P T) {e : Expr} (h : P e) (pad : Nat) :
    P (e.extension pad) := by
  rw [Expr.extension]
  split
  next signed => exact kept.replicate (kept.extract e h (.inl (Nat.sub_one_lt_of_lt signed.2)))
  next => exact kept.literal _

theorem fit (kept : Hereditary P T) {e : Expr} (h : P e) {width : Nat} (some : 0 < width ∨ T) :
    P (e.fit width) := by
  rw [Expr.fit]
  split
  · exact h
  cases e.literal? with
  | some c => exact kept.literal _
  | none =>
    simp only
    split
    · exact kept.extract e h some
    · exact kept.concat.mpr (List.forall_mem_cons.mpr
        ⟨h, List.forall_mem_singleton.mpr (kept.extension h _)⟩)

theorem and {Q : Expr → Prop} (first : Hereditary P True) (second : Hereditary Q T) :
    Hereditary (fun e => P e ∧ Q e) T where
  literal c := ⟨first.literal c, second.literal c⟩
  binary left right := ⟨first.binary left.1 right.1, second.binary left.2 right.2⟩
  replicate h := ⟨first.replicate h.1, second.replicate h.2⟩
  slice := by
    intros
    simp only [first.slice, second.slice, or_true, and_true, and_assoc]
  concat := by
    intros
    simp only [first.concat, second.concat, forall₂_and]
  mux := by
    intros
    simp only [first.mux, second.mux, forall₂_and]
    exact and_and_and_comm

end Hereditary

theorem within_mentionsOf {S : Signal → Prop} {ps : List Expr} :
    Within S (mentionsOf ps) ↔ ∀ p ∈ ps, Within S p.mentions := by
  rw [mentionsOf_eq]
  exact List.forall_mem_flatMap

theorem hereditary_mentions (S : Signal → Prop) :
    Hereditary (fun e => Within S e.mentions) True where
  literal _ _ member := (List.not_mem_nil member).elim
  binary left right := List.forall_mem_append.mpr ⟨left, right⟩
  replicate h := h
  slice := ⟨fun h => ⟨h, .inr trivial⟩, And.left⟩
  concat := within_mentionsOf
  mux := List.forall_mem_append.trans (and_congr_right fun _ => within_mentionsOf)

theorem mentions_extract (e : Expr) (start stop : Nat) :
    (e.extract start stop).mentions ⊆ e.mentions :=
  (hereditary_mentions (· ∈ e.mentions)).extract e (fun _ => id) (.inr trivial)

theorem narrow_whole {e : Expr} {start stop : Nat} (whole : start = 0 ∧ stop = e.width) :
    e.narrow start stop = e := by
  cases e <;> rw [narrow, if_pos whole]

mutual
theorem mentions_narrow (e : Expr) (start stop : Nat) :
    (e.narrow start stop).mentions ⊆ e.mentions := by
  by_cases whole : start = 0 ∧ stop = e.width
  · rw [narrow_whole whole]
    exact List.Subset.refl _
  cases e with
  | concat ps =>
    rw [narrow, if_neg whole, mentions_join]
    exact mentionsOf_narrowParts ps 0 start stop
  | mux s cs =>
    rw [narrow, if_neg whole]
    exact append_subset_append (List.Subset.refl _) (mentionsOf_narrowAll cs start stop)
  | literal | signal | ref | unary | binary | slice | replicate =>
    rw [narrow, if_neg whole]
    exact mentions_extract _ _ _

theorem mentionsOf_narrowParts (ps : List Expr) (lo start stop : Nat) :
    mentionsOf (narrowParts ps lo start stop) ⊆ mentionsOf ps := by
  cases ps with
  | nil => exact List.Subset.refl _
  | cons p ps =>
    have rest := mentionsOf_narrowParts ps (lo + p.width) start stop
    simp only [narrowParts]
    split
    · exact append_subset_append (mentions_narrow p _ _) rest
    · exact List.subset_append_of_subset_right _ rest

theorem mentionsOf_narrowAll (ps : List Expr) (start stop : Nat) :
    mentionsOf (narrowAll ps start stop) ⊆ mentionsOf ps := by
  cases ps with
  | nil => exact List.Subset.refl _
  | cons p ps =>
    exact append_subset_append (mentions_narrow p start stop) (mentionsOf_narrowAll ps start stop)
end

theorem mentions_sliceNormal (e : Expr) (start stop : Nat) :
    (e.sliceNormal start stop).mentions ⊆ e.mentions := by
  cases e with
  | mux s cs =>
    exact append_subset_append (List.Subset.refl _) (mentionsOf_narrowAll cs start stop)
  | concat ps => exact mentions_narrow (.concat ps) start stop
  | _ => exact mentions_extract _ start stop

theorem mentions_normal (e : Expr) : e.normal.mentions ⊆ e.mentions := by
  induction e with
  | slice a start stop ih =>
    exact List.Subset.trans (mentions_sliceNormal a.normal start stop) ih
  | concat ps ih =>
    rw [normal, mentions, mentions, normalAll_eq, mentionsOf_eq, mentionsOf_eq, List.flatMap_map]
    exact flatMap_subset_flatMap ih
  | mux s cs _ ih =>
    rw [normal, mentions, mentions, normalAll_eq, mentionsOf_eq, mentionsOf_eq, List.flatMap_map]
    exact append_subset_append (List.Subset.refl _) (flatMap_subset_flatMap ih)
  | literal | signal | ref | unary | binary | replicate => exact List.Subset.refl _

end Expr

end Gateware
