import Gateware.Proofs.Admission
import Gateware.Proofs.Resolution
import Gateware.Stmt.Fold

/-!
# What folded expressions keep

Folding cuts expressions, joins them and chooses between them. Whatever these keep holds of all that
an environment holds, once it holds of what is stored.

## Main results

* `Stmt.holds_foldAll`: statements keep a hereditary property of what signals of a set hold, if
  their targets are made for it and their values have it.
* `Stmt.mentions_folded`: the final expressions are about signals that the statements mention.
* `Stmt.stopsFolding_of_filled`: folding expressions that all have bits does not stop, and there is
  no empty slice in the final expressions (`Stmt.solid_folded`).
-/
namespace Gateware

namespace Symbolic

variable {D : Signal → Prop} {P : Expr → Prop} {T : Prop} {env : Symbolic}

/-- What the signals of `D` hold has a property. -/
def Holds (D : Signal → Prop) (P : Expr → Prop) (env : Symbolic) : Prop := ∀ s, D s → P (env.held s)

theorem held_insert (env : Symbolic) (s t : Signal) (e : Expr) :
    held (env.insert s e) t = if t = s then e else env.held t := by
  rw [held, OrdMap.getD, OrdMap.get?_insert]
  split <;> rfl

theorem held_merge (cond : Expr) (yes no : Symbolic) (s : Signal) :
    (merge cond yes no).held s =
      if yes.held s = no.held s then yes.held s else .select cond (yes.held s) (no.held s) := by
  rw [held, OrdMap.getD, merge, OrdMap.get?_ofKeys]
  by_cases known : s ∈ yes.keys ∪ no.keys
  · rw [if_pos known, Option.getD_some]
  · -- A signal that neither way stores into holds its reset value on both.
    rw [if_neg known, Option.getD_none]
    simp only [OrdSet.mem_union, OrdMap.mem_keys, not_or, Bool.not_eq_true,
      Option.isSome_eq_false_iff, Option.isNone_iff_eq_none] at known
    simp [held, OrdMap.getD, known.1, known.2]

theorem Holds.insert (h : env.Holds D P) (s : Signal) {e : Expr} (he : P e) :
    Holds D P (OrdMap.insert env s e) := by
  intro t ht
  rw [held_insert]
  split
  · exact he
  · exact h t ht

theorem Holds.merge (kept : Expr.Hereditary P T) {cond : Expr} {yes no : Symbolic} (hcond : P cond)
    (hyes : yes.Holds D P) (hno : no.Holds D P) : (merge cond yes no).Holds D P := by
  intro s hs
  rw [held_merge]
  split
  · exact hyes s hs
  · exact kept.mux.mpr ⟨hcond, List.forall_mem_cons.mpr
      ⟨hno s hs, List.forall_mem_singleton.mpr (hyes s hs)⟩⟩

mutual
/-- What a target holds comes from the signals it drives and from what it reads. -/
theorem Holds.heldBy (kept : Expr.Hereditary P T) (h : env.Holds D P) (t : Expr)
    (admits : t.Admits D P T) : P (env.heldBy t) := by
  cases t with
  | literal | ref | unary | binary | replicate => exact admits
  | signal s => exact h s admits
  | slice a start stop => exact kept.extract _ (h.heldBy kept a admits.2) admits.1
  | concat ps => exact kept.concat.mpr (h.heldByParts kept ps admits.1)
  | mux s cs => exact kept.mux.mpr ⟨admits.1, h.heldByParts kept cs admits.2⟩

theorem Holds.heldByParts (kept : Expr.Hereditary P T) (h : env.Holds D P) (ps : List Expr)
    (admits : Expr.AdmitsAll D P T ps) : ∀ e ∈ env.heldByParts ps, P e := by
  cases ps with
  | nil => exact fun _ member => (List.not_mem_nil member).elim
  | cons p ps =>
    exact List.forall_mem_cons.mpr ⟨h.heldBy kept p admits.1, h.heldByParts kept ps admits.2⟩
end

theorem splice_kept (kept : Expr.Hereditary P T) {old new : Expr} {start stop : Nat} (hold : P old)
    (hnew : P new) (some : start < stop ∨ T) : P (splice old new start stop) := by
  refine kept.join (List.forall_mem_append.mpr ⟨List.forall_mem_append.mpr ⟨?_, ?_⟩, ?_⟩)
  · split
    next low => exact List.forall_mem_singleton.mpr (kept.extract old hold (.inl low))
    next => exact fun _ member => (List.not_mem_nil member).elim
  · exact List.forall_mem_singleton.mpr (kept.fit hnew (some.imp_left Nat.sub_pos_of_lt))
  · split
    next high => exact List.forall_mem_singleton.mpr (kept.extract old hold (.inl high))
    next => exact fun _ member => (List.not_mem_nil member).elim

theorem picks_kept (kept : Expr.Hereditary P T) {selector : Expr} (h : P selector) (i last : Nat) :
    P (picks selector i last) := by
  rw [picks]
  split <;> exact kept.binary h (kept.literal _)

mutual
theorem Holds.store (kept : Expr.Hereditary P T) {env : Symbolic} (h : env.Holds D P) (t v : Expr)
    (admits : t.Admits D P T) (hv : P v) : (env.store t v).Holds D P := by
  cases t with
  | literal | ref | unary | binary | replicate =>
    simp only [Symbolic.store]
    exact h
  | signal s =>
    simp only [Symbolic.store]
    exact h.insert s hv
  | slice a start stop =>
    -- The bits beside the slice are read back from what is driven here.
    simp only [Symbolic.store]
    exact h.store kept a _ admits.2 (splice_kept kept (h.heldBy kept a admits.2) hv admits.1)
  | concat ps =>
    simp only [Symbolic.store]
    match ps with
    | [] =>
      simp only [Symbolic.storeParts]
      exact h
    | p :: ps =>
      have width := (admits.2 p (.head _)).imp_left fun some =>
        Nat.lt_of_lt_of_le some (Nat.le_add_right p.width (Expr.concat ps).width)
      exact h.storeParts kept (p :: ps) _ 0 admits.1 admits.2 (kept.fit hv width)
  | mux s cs =>
    match cs with
    | [] =>
      simp only [Symbolic.store, Symbolic.storeChoices]
      exact h
    | [c] =>
      simp only [Symbolic.store]
      exact h.store kept c v admits.2.1 hv
    | c :: d :: ds =>
      -- Which choice is stored to depends on the selector, so it shows in what is held.
      simp only [Symbolic.store]
      exact h.storeChoices kept s (c :: d :: ds) v 0 _ admits.1 admits.2 hv
termination_by structural t

theorem Holds.storeParts (kept : Expr.Hereditary P T) {env : Symbolic} (h : env.Holds D P)
    (ps : List Expr) (v : Expr) (lo : Nat) (admits : Expr.AdmitsAll D P T ps)
    (wide : ∀ p ∈ ps, 0 < p.width ∨ T) (hv : P v) : (env.storeParts ps v lo).Holds D P := by
  cases ps with
  | nil =>
    simp only [Symbolic.storeParts]
    exact h
  | cons p ps =>
    obtain ⟨first, others⟩ := List.forall_mem_cons.mp wide
    simp only [Symbolic.storeParts]
    refine Holds.storeParts kept ?_ ps v _ admits.2 others hv
    exact h.store kept p _ admits.1 (kept.extract v hv (first.imp_left Nat.lt_add_of_pos_right))
termination_by structural ps

theorem Holds.storeChoices (kept : Expr.Hereditary P T) {env : Symbolic} (h : env.Holds D P)
    (selector : Expr) (cs : List Expr) (v : Expr) (i last : Nat) (hselector : P selector)
    (admits : Expr.AdmitsAll D P T cs) (hv : P v) :
    (env.storeChoices selector cs v i last).Holds D P := by
  cases cs with
  | nil =>
    simp only [Symbolic.storeChoices]
    exact h
  | cons c cs =>
    simp only [Symbolic.storeChoices]
    refine Holds.storeChoices kept ?_ selector cs v _ last hselector admits.2 hv
    exact .merge kept (picks_kept kept hselector i last) (h.store kept c v admits.1 hv) h
termination_by structural cs
end

end Symbolic

namespace Stmt

variable {D : Signal → Prop} {P : Expr → Prop} {T : Prop}

mutual
theorem holds_fold (kept : Expr.Hereditary P T) {env : Symbolic} (h : env.Holds D P) (s : Stmt)
    (admits : s.Admits D P T) : (fold env s).Holds D P := by
  match s with
  | .assign lhs rhs => exact h.store kept lhs rhs admits.1 admits.2
  | .branch cond yes no =>
    exact .merge kept admits.1 (holds_foldAll kept h yes admits.2.1)
      (holds_foldAll kept h no admits.2.2)
  | .select test arms => exact holds_foldArms kept h test arms admits.1 admits.2
  | .nextState _ | .nextValue .. => exact h

/-- Statements keep a property of what the signals of `D` hold. -/
theorem holds_foldAll (kept : Expr.Hereditary P T) {env : Symbolic} (h : env.Holds D P)
    (ss : List Stmt) (admits : AdmitsAll D P T ss) : (foldAll env ss).Holds D P := by
  match ss with
  | [] => exact h
  | s :: ss => exact holds_foldAll kept (holds_fold kept h s admits.1) ss admits.2

theorem holds_foldArms (kept : Expr.Hereditary P T) {env : Symbolic} (h : env.Holds D P)
    (test : Expr) (arms : Arms) (htest : P test) (admits : AdmitsArms D P T arms) :
    (foldArms env test arms).Holds D P := by
  match arms with
  | .done => exact h
  | .otherwise body => exact holds_foldAll kept h body admits
  | .arm key body rest =>
    exact .merge kept (kept.binary htest (kept.literal key)) (holds_foldAll kept h body admits.1)
      (holds_foldArms kept h test rest htest admits.2)
end

/-- In the end a property that all targets and values allow holds of every expression. -/
theorem holds_folded (kept : Expr.Hereditary P T) {ss : List Stmt}
    (admits : AdmitsAll (fun _ => True) P T ss) {s : Signal} {e : Expr}
    (found : (folded ss).get? s = some e) : P e := by
  have start : Symbolic.Holds (fun _ => True) P ∅ := fun _ _ => kept.literal _
  have held := holds_foldAll kept start ss admits s trivial
  rwa [← folded, Symbolic.held, OrdMap.getD, found] at held

end Stmt

namespace Expr

variable {P : Expr → Prop} {T : Prop}

/-- What has a property and takes bits that are there is a target made for the property. -/
theorem Hereditary.admits (kept : Hereditary P T) (e : Expr) (h : P e)
    (wide : ∀ k ∈ e.nodes, 0 < k.width ∨ T) : e.Admits (fun _ => True) P T := by
  induction e with
  | signal => exact trivial
  | literal | ref | unary | binary | replicate => exact h
  | slice _ _ _ ih =>
    obtain ⟨inner, some⟩ := kept.slice.mp h
    exact ⟨some, ih inner (List.forall_mem_cons.mp wide).2⟩
  | concat ps ih =>
    have below := (List.forall_mem_cons.mp wide).2
    rw [nodesOf_eq, List.forall_mem_flatMap] at below
    exact ⟨admitsAll_iff.mpr fun p hp => ih p hp (kept.concat.mp h p hp) (below p hp),
      fun p hp => below p hp p p.mem_nodes_self⟩
  | mux s cs _ ih =>
    obtain ⟨selector, choices⟩ := kept.mux.mp h
    have below := (List.forall_mem_append.mp (List.forall_mem_cons.mp wide).2).2
    rw [nodesOf_eq, List.forall_mem_flatMap] at below
    exact ⟨selector, admitsAll_iff.mpr fun c hc => ih c hc (choices c hc) (below c hc)⟩

/-- No slice in it is empty, unless `T`. -/
def Solid (T : Prop) (e : Expr) : Prop :=
  ∀ a start stop, .slice a start stop ∈ e.nodes → start < stop ∨ T

/-- Every expression in it has bits, and no more than a width can count. -/
def Filled (e : Expr) : Prop := ∀ k ∈ e.nodes, 0 < k.width ∧ k.width ≤ maxWidth

theorem Filled.of_node {e k : Expr} (h : e.Filled) (hk : k ∈ e.nodes) : k.Filled :=
  fun n hn => h n (nodes_subset e hk hn)

theorem Solid.of_node {e k : Expr} (h : e.Solid T) (hk : k ∈ e.nodes) : k.Solid T :=
  fun a start stop member => h a start stop (nodes_subset e hk member)

theorem solid_of_filled {e : Expr} (h : T ∨ e.Filled) : e.Solid T :=
  fun _ _ _ member => h.symm.imp_left fun filled => Nat.lt_of_sub_pos (filled _ member).1

theorem mem_nodesOf {k : Expr} (ps : List Expr) : k ∈ nodesOf ps ↔ ∃ p ∈ ps, k ∈ p.nodes := by
  rw [nodesOf_eq, List.mem_flatMap]

theorem Filled.parts {ps : List Expr} (h : (concat ps).Filled) : ∀ p ∈ ps, p.Filled := fun p hp =>
  h.of_node (.tail _ ((mem_nodesOf ps).mpr ⟨p, hp, p.mem_nodes_self⟩))

theorem Filled.selector {s : Expr} {cs : List Expr} (h : (mux s cs).Filled) : s.Filled :=
  h.of_node (.tail _ (List.mem_append_left _ s.mem_nodes_self))

theorem Filled.choices {s : Expr} {cs : List Expr} (h : (mux s cs).Filled) :
    ∀ c ∈ cs, c.Filled := fun c hc =>
  h.of_node (.tail _ (List.mem_append_right _ ((mem_nodesOf cs).mpr ⟨c, hc, c.mem_nodes_self⟩)))

theorem hereditary_solid (T : Prop) : Hereditary (Solid T) T where
  literal c a start stop member := by simp [nodes] at member
  binary left right a start stop member := by
    simp only [nodes, List.mem_cons, reduceCtorEq, List.mem_append, false_or] at member
    exact member.elim (left a start stop) (right a start stop)
  replicate h a start stop member := by
    simp only [nodes, List.mem_cons, reduceCtorEq, false_or] at member
    exact h a start stop member
  slice := by
    intro a start stop
    constructor
    · exact fun h => ⟨fun b i j member => h b i j (.tail _ member), h a start stop (.head _)⟩
    · rintro ⟨inner, some⟩ b i j (_ | ⟨_, member⟩)
      · exact some
      · exact inner b i j member
  concat := by
    intro ps
    simp only [Solid, nodes, List.mem_cons, reduceCtorEq, false_or, mem_nodesOf]
    constructor
    · exact fun h p hp a i j member => h a i j ⟨p, hp, member⟩
    · rintro h a i j ⟨p, hp, member⟩
      exact h p hp a i j member
  mux := by
    intro s cs
    simp only [Solid, nodes, List.mem_cons, reduceCtorEq, false_or, List.mem_append, mem_nodesOf]
    constructor
    · exact fun h => ⟨fun a i j member => h a i j (.inl member),
        fun c hc a i j member => h a i j (.inr ⟨c, hc, member⟩)⟩
    · rintro ⟨selector, choices⟩ a i j (member | ⟨c, hc, member⟩)
      · exact selector a i j member
      · exact choices c hc a i j member

theorem admits_of_filled {e : Expr} (h : T ∨ e.Filled) : e.Admits (fun _ => True) (Solid T) T :=
  (hereditary_solid T).admits e (solid_of_filled h) fun k hk =>
    h.symm.imp_left fun filled => (filled k hk).1

/-! ### Values that can be fitted -/

/-- An expression that can be fitted to every width. -/
def Apt (e : Expr) : Prop := ∀ width, e.unfit width = false

theorem apt_of_width {e : Expr} (h : 0 < e.width) : e.Apt := by
  intro width
  simp [unfit, Nat.ne_of_gt h]

theorem apt_of_unsigned {e : Expr} (h : e.shape.signed = false) : e.Apt := by
  intro width
  simp [unfit, h]

theorem apt_literal (c : Literal) : (literal c).Apt := by
  intro width
  simp [unfit, literal?]

theorem Filled.apt {e : Expr} (h : e.Filled) : e.Apt := apt_of_width (h e e.mem_nodes_self).1

theorem apt_join {ps : List Expr} (h : ∀ p ∈ ps.head?, p.Apt) : (join ps).Apt := by
  match ps with
  | [] | _ :: _ :: _ => exact apt_of_unsigned rfl
  | [p] => exact h p rfl

mutual
/-- What is cut out has bits, or it consists of parts. -/
theorem apt_extract (e : Expr) {start stop : Nat} (some : start < stop) :
    (e.extract start stop).Apt := by
  by_cases whole : start = 0 ∧ stop = e.width
  · rw [extract_whole whole]
    exact apt_of_width (by omega)
  cases e with
  | literal c =>
    rw [extract, if_neg whole]
    exact apt_literal _
  | concat ps =>
    rw [extract, if_neg whole]
    exact apt_join (apt_extractParts ps 0 (Nat.zero_le start) some)
  | slice a base top =>
    rw [extract, if_neg whole]
    exact apt_of_width (Nat.sub_pos_of_lt (Nat.add_lt_add_left some base))
  | signal | ref | unary | binary | replicate | mux =>
    rw [extract, if_neg whole]
    exact apt_of_width (Nat.sub_pos_of_lt some)

theorem apt_extractParts (ps : List Expr) (lo : Nat) {start stop : Nat} (order : lo ≤ start)
    (some : start < stop) : ∀ p ∈ (extractParts ps lo start stop).head?, p.Apt := by
  cases ps with
  | nil => exact fun _ none => (Option.not_mem_none _ none).elim
  | cons p ps =>
    simp only [extractParts]
    split
    next meets =>
      rintro q ⟨⟩
      exact apt_extract p (by omega)
    next apart => exact apt_extractParts ps _ (by omega) some
end

theorem apt_fit (e : Expr) {width : Nat} (some : 0 < width) : (e.fit width).Apt := by
  rw [fit]
  split
  next same => exact apt_of_width (same ▸ some)
  cases e.literal? with
  | some c => exact apt_literal _
  | none =>
    simp only
    split
    · exact apt_extract e some
    · exact apt_of_unsigned rfl

end Expr

namespace Symbolic

open Expr (Apt apt_fit apt_extract)

variable {D : Signal → Prop} {P : Expr → Prop} {env : Symbolic}

theorem apt_splice (old new : Expr) {start stop : Nat} (some : start < stop) :
    (splice old new start stop).Apt := by
  rw [splice]
  split <;> split
  -- With bits of the old value beside the new ones it is a concatenation.
  · exact Expr.apt_of_unsigned rfl
  · exact Expr.apt_of_unsigned rfl
  · exact Expr.apt_of_unsigned rfl
  · exact apt_fit new (Nat.sub_pos_of_lt some)

mutual
/-- A value that can be fitted is stored, if all bits that the target takes are there. -/
theorem overflows_of_apt (env : Symbolic) (t : Expr) {v : Expr} (admits : t.Admits D P False)
    (apt : v.Apt) : env.overflows t v = false := by
  cases t with
  | literal | signal | ref | unary | binary | replicate => rfl
  | slice a start stop =>
    have some : start < stop := admits.1.resolve_right id
    simp only [overflows, apt _, Bool.false_or]
    exact overflows_of_apt env a admits.2 (apt_splice _ v some)
  | concat ps =>
    simp only [overflows, apt _, Bool.false_or]
    exact overflowsParts_of_wide env ps _ 0 admits.1 admits.2
  | mux s cs =>
    match cs with
    | [] => rfl
    | [c] => exact overflows_of_apt env c admits.2.1 apt
    | c :: d :: ds => exact overflowsChoices_of_apt env s (c :: d :: ds) 0 _ admits.2 apt
termination_by structural t

theorem overflowsParts_of_wide (env : Symbolic) (ps : List Expr) (v : Expr) (lo : Nat)
    (admits : Expr.AdmitsAll D P False ps) (wide : ∀ p ∈ ps, 0 < p.width ∨ False) :
    env.overflowsParts ps v lo = false := by
  cases ps with
  | nil => rfl
  | cons p ps =>
    obtain ⟨first, others⟩ := List.forall_mem_cons.mp wide
    have bits := apt_extract v (Nat.lt_add_of_pos_right (n := lo) (first.resolve_right id))
    simp only [overflowsParts, overflows_of_apt env p admits.1 bits, Bool.false_or]
    exact overflowsParts_of_wide _ ps v _ admits.2 others
termination_by structural ps

theorem overflowsChoices_of_apt (env : Symbolic) (selector : Expr) (cs : List Expr) {v : Expr}
    (i last : Nat) (admits : Expr.AdmitsAll D P False cs) (apt : v.Apt) :
    env.overflowsChoices selector cs v i last = false := by
  cases cs with
  | nil => rfl
  | cons c cs =>
    simp only [overflowsChoices, overflows_of_apt env c admits.1 apt, Bool.false_or]
    exact overflowsChoices_of_apt _ selector cs _ last admits.2 apt
termination_by structural cs
end

end Symbolic

namespace Stmt

mutual
theorem overflows_of_filled (env : Symbolic) (s : Stmt) (filled : ∀ e ∈ s.exprs, e.Filled) :
    overflows env s = false := by
  match s with
  | .assign lhs rhs =>
    exact Symbolic.overflows_of_apt env lhs (Expr.admits_of_filled (.inr (filled lhs (.head _))))
      (filled rhs (.tail _ (.head _))).apt
  | .branch cond yes no =>
    simp only [exprs, List.forall_mem_cons, List.forall_mem_append] at filled
    simp [overflows, overflowsAll_of_filled env yes filled.2.1,
      overflowsAll_of_filled env no filled.2.2]
  | .select test arms =>
    simp only [exprs, List.forall_mem_cons] at filled
    exact overflowsArms_of_filled env arms filled.2
  | .nextState _ | .nextValue .. => rfl

theorem overflowsAll_of_filled (env : Symbolic) (ss : List Stmt)
    (filled : ∀ e ∈ exprsOf ss, e.Filled) : overflowsAll env ss = false := by
  match ss with
  | [] => rfl
  | s :: ss =>
    simp only [exprsOf, List.forall_mem_append] at filled
    simp [overflowsAll, overflows_of_filled env s filled.1, overflowsAll_of_filled _ ss filled.2]

theorem overflowsArms_of_filled (env : Symbolic) (arms : Arms)
    (filled : ∀ e ∈ exprsOfArms arms, e.Filled) : overflowsArms env arms = false := by
  match arms with
  | .done => rfl
  | .otherwise body => exact overflowsAll_of_filled env body filled
  | .arm key body rest =>
    simp only [exprsOfArms, List.forall_mem_append] at filled
    simp [overflowsArms, overflowsAll_of_filled env body filled.1,
      overflowsArms_of_filled env rest filled.2]
end

/-- Folding does not stop where every expression has bits. -/
theorem stopsFolding_of_filled {ss : List Stmt} (filled : ∀ e ∈ exprsOf ss, e.Filled) :
    stopsFolding ss = false :=
  overflowsAll_of_filled ∅ ss filled

theorem solid_folded {ss : List Stmt} {T : Prop} (filled : T ∨ ∀ e ∈ exprsOf ss, e.Filled)
    {s : Signal} {e : Expr} (found : (folded ss).get? s = some e) : e.Solid T := by
  refine holds_folded (Expr.hereditary_solid T) (admitsAll_of_exprs ss fun e he => ?_) found
  have filled := filled.imp_right (· e he)
  exact ⟨Expr.solid_of_filled filled, Expr.admits_of_filled filled⟩

/-- All expressions of a list are about signals of a set. -/
abbrev AllWithin (S : Signal → Prop) (es : List Expr) : Prop := ∀ e ∈ es, Within S e.mentions

/-- The final expressions are about signals that the statements mention. -/
theorem mentions_folded {S : Signal → Prop} (ss : List Stmt) (within : AllWithin S (exprsOf ss))
    {s : Signal} {e : Expr} (found : (folded ss).get? s = some e) : Within S e.mentions := by
  have kept := Expr.hereditary_mentions S
  refine holds_folded kept (admitsAll_of_exprs ss fun e he => ⟨within e he, ?_⟩) found
  exact kept.admits e (within e he) fun _ _ => .inr trivial

end Stmt

end Gateware
