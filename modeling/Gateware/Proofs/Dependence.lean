import Gateware.Proofs.Admission
import Gateware.Proofs.Bits
import Gateware.Proofs.Frame

/-!
# What runs depend on

The value of an expression depends on the signals it mentions, and a run on the signals its
statements read and drive: two frames that agree there run alike, down to the fault. Without
unresolved references, stray state machine statements and targets that cannot be driven, every run
comes to its end.
-/
namespace Gateware

namespace Expr

/-! ### Expressions -/

theorem eval_int (ρ : Valuation) (v : Int) : (Expr.int v).eval ρ = .ok v :=
  congrArg Except.ok (Shape.wrap_ofValue v)

theorem evalParts_congr {ρ τ : Valuation} {ps : List Expr}
    (each : ∀ p ∈ ps, p.eval ρ = p.eval τ) : evalParts ρ ps = evalParts τ ps := by
  induction ps with
  | nil => rfl
  | cons p ps ih =>
    obtain ⟨head, tail⟩ := List.forall_mem_cons.mp each
    rw [evalParts, evalParts, head, ih tail]

theorem eval_congr {ρ τ : Valuation} (e : Expr) (h : ∀ s ∈ e.mentions, ρ s = τ s) :
    e.eval ρ = e.eval τ := by
  induction e with
  | literal | ref => rfl
  | signal s => rw [eval, eval, h s (.head _)]
  | unary _ _ ih | slice _ _ _ ih | replicate _ _ ih => rw [eval, eval, ih h]
  | binary _ _ _ ia ib =>
    obtain ⟨left, right⟩ := List.forall_mem_append.mp h
    rw [eval, eval, ia left, ib right]
  | concat ps ih =>
    rw [mentions, mentionsOf_eq, List.forall_mem_flatMap] at h
    rw [eval, eval, evalParts_congr fun p hp => ih p hp (h p hp)]
  | mux s cs is ih =>
    rw [mentions, mentionsOf_eq, List.forall_mem_append, List.forall_mem_flatMap] at h
    rw [eval, eval, is h.1]
    refine bind_congr fun k => ?_
    rcases choice_cases cs k with rfl | ⟨c, hc, found⟩
    · rfl
    · rw [evalChoice_eq found, evalChoice_eq found, ih c hc (h.2 c hc)]

theorem evalParts_ok {ρ : Valuation} {ps : List Expr} (each : ∀ p ∈ ps, ∃ v, p.eval ρ = .ok v) :
    ∃ b, evalParts ρ ps = .ok b := by
  induction ps with
  | nil => exact ⟨_, rfl⟩
  | cons p ps ih =>
    obtain ⟨⟨v, hv⟩, tail⟩ := List.forall_mem_cons.mp each
    obtain ⟨w, hw⟩ := ih tail
    exact ⟨_, by rw [evalParts, hv, hw]; rfl⟩

/-- Only unresolved references have no value. -/
theorem eval_ok (ρ : Valuation) (e : Expr) (resolved : e.refs = []) : ∃ v, e.eval ρ = .ok v := by
  induction e with
  | literal | signal => exact ⟨_, rfl⟩
  | ref r => simp [refs] at resolved
  | unary _ _ ih | slice _ _ _ ih | replicate _ _ ih =>
    obtain ⟨v, hv⟩ := ih resolved
    exact ⟨_, by rw [eval, hv]; rfl⟩
  | binary _ _ _ ia ib =>
    obtain ⟨left, right⟩ := List.append_eq_nil_iff.mp resolved
    obtain ⟨v, hv⟩ := ia left
    obtain ⟨w, hw⟩ := ib right
    exact ⟨_, by rw [eval, hv, hw]; rfl⟩
  | concat ps ih =>
    rw [refs, refsOf_eq, List.flatMap_eq_nil_iff] at resolved
    obtain ⟨v, hv⟩ := evalParts_ok fun p hp => ih p hp (resolved p hp)
    exact ⟨_, by rw [eval, hv]; rfl⟩
  | mux s cs is ih =>
    rw [refs, refsOf_eq, List.append_eq_nil_iff, List.flatMap_eq_nil_iff] at resolved
    obtain ⟨k, hk⟩ := is resolved.1
    rw [eval, hk]
    rcases choice_cases cs k with rfl | ⟨c, hc, found⟩
    · exact ⟨_, rfl⟩
    · obtain ⟨v, hv⟩ := ih c hc (resolved.2 c hc)
      exact ⟨_, bind_eq_ok.mpr ⟨k, rfl, bind_eq_ok.mpr ⟨v, (evalChoice_eq found).trans hv, rfl⟩⟩⟩

/-- A signal's value may be any number; all other expressions wrap theirs. -/
theorem eval_wrapped {ρ : Valuation} {e : Expr} (inRange : ∀ s ∈ e.mentions, s.shape.Holds (ρ s))
    {v : Int} (value : e.eval ρ = .ok v) : e.shape.wrap v = v := by
  cases e with
  | literal c =>
    cases value
    exact c.shape.wrap_wrap c.value
  | signal s =>
    cases value
    exact s.shape.wrap_eq_self_iff.mpr (inRange s (.head _))
  | ref r => cases value
  | unary | slice | concat | replicate =>
    rw [eval] at value
    obtain ⟨_, _, value⟩ := bind_eq_ok.mp value
    cases value
    exact Shape.wrap_wrap ..
  | binary | mux =>
    rw [eval] at value
    obtain ⟨_, _, value⟩ := bind_eq_ok.mp value
    obtain ⟨_, _, value⟩ := bind_eq_ok.mp value
    cases value
    exact Shape.wrap_wrap ..

end Expr

namespace Frame

/-! ### Frames that run alike -/

/-- Two runs that end in the same way, in related frames. -/
def SameEnd {α : Type} (I : Frame → Frame → Prop) (x y : Except SimFault α × Frame) : Prop :=
  x.1 = y.1 ∧ I x.2 y.2

/-- A relation between frames that storing keeps. In related frames expressions that have `P` are
seen with the same value, and the signals of `D` have the same latest value. -/
structure Kept (I : Frame → Frame → Prop) (D : Signal → Prop) (P : Expr → Prop) : Prop where
  eval {f g : Frame} : I f g → ∀ e, P e → e.eval f.seen = e.eval g.seen
  latest {f g : Frame} : I f g → ∀ s, D s → f.latest s = g.latest s
  stored {f g : Frame} : I f g → ∀ s v, I (f.stored s v) (g.stored s v)

section Kept

variable {I : Frame → Frame → Prop} {D : Signal → Prop} {P : Expr → Prop}

theorem holdsParts_congr {f g : Frame} {ps : List Expr} (each : ∀ p ∈ ps, f.holds p = g.holds p) :
    f.holdsParts ps = g.holdsParts ps := by
  induction ps with
  | nil => rfl
  | cons p ps ih =>
    obtain ⟨head, tail⟩ := List.forall_mem_cons.mp each
    rw [holdsParts, holdsParts, head, ih tail]

theorem holds_eq_of_kept (kept : Kept I D P) {f g : Frame} (h : I f g) (t : Expr)
    (admits : t.Admits D P True) : f.holds t = g.holds t := by
  induction t with
  | signal s => rw [holds, holds, kept.latest h s admits]
  | slice _ _ _ ih => rw [holds, holds, ih admits.2]
  | concat ps ih =>
    rw [holds, holds,
      holdsParts_congr fun p hp => ih p hp (Expr.admitsAll_iff.mp admits.1 p hp)]
  | mux s cs _ ih =>
    rw [holds, holds, kept.eval h s admits.1]
    cases s.eval g.seen with
    | error e => rfl
    | ok k =>
      rcases Expr.choice_cases cs k with rfl | ⟨c, hc, found⟩
      · rfl
      · exact (holdsChoice_eq found).trans ((ih c hc (Expr.admitsAll_iff.mp admits.2 c hc)).trans
          (holdsChoice_eq found).symm)
  -- What cannot be driven is read like any expression.
  | literal | ref | unary | binary | replicate => exact kept.eval h _ admits

theorem writeParts_sameEnd {ps : List Expr}
    (each : ∀ p ∈ ps, ∀ (v : Int) {f g : Frame}, I f g →
      SameEnd I ((write p v).run.run f) ((write p v).run.run g)) (bits : Nat) {f g : Frame}
    (h : I f g) : SameEnd I ((writeParts ps bits).run.run f) ((writeParts ps bits).run.run g) := by
  induction ps generalizing bits f g with
  | nil =>
    rw [run_writeParts_nil, run_writeParts_nil]
    exact ⟨rfl, h⟩
  | cons p ps ih =>
    obtain ⟨head, tail⟩ := List.forall_mem_cons.mp each
    have first := head (bits &&& mask p.width : Nat) h
    rw [run_writeParts_cons, run_writeParts_cons]
    generalize (write p (bits &&& mask p.width : Nat)).run.run f = x at first ⊢
    generalize (write p (bits &&& mask p.width : Nat)).run.run g = y at first ⊢
    obtain ⟨x, f'⟩ := x
    obtain ⟨y, g'⟩ := y
    obtain ⟨same, related⟩ := first
    cases same
    cases x with
    | error e => exact ⟨rfl, related⟩
    | ok u => exact ih tail _ related

theorem write_sameEnd (kept : Kept I D P) {f g : Frame} (h : I f g) (t : Expr) (v : Int)
    (admits : t.Admits D P True) : SameEnd I ((write t v).run.run f) ((write t v).run.run g) := by
  induction t generalizing v f g with
  | signal s =>
    rw [run_write_signal, run_write_signal]
    exact ⟨rfl, kept.stored h s v⟩
  | slice a start stop ih =>
    rw [run_write_slice, run_write_slice, holds_eq_of_kept kept h a admits.2]
    cases g.holds a with
    | error e => exact ⟨rfl, h⟩
    | ok old => exact ih h _ admits.2
  | concat ps ih =>
    rw [run_write_concat, run_write_concat]
    exact writeParts_sameEnd
      (fun p hp v _ _ h => ih p hp h v (Expr.admitsAll_iff.mp admits.1 p hp)) _ h
  | mux s cs _ ih =>
    rw [run_write_mux, run_write_mux, kept.eval h s admits.1]
    cases s.eval g.seen with
    | error e => exact ⟨rfl, h⟩
    | ok k =>
      rcases Expr.choice_cases cs k with rfl | ⟨c, hc, found⟩
      · exact ⟨rfl, h⟩
      · dsimp only
        rw [writeChoice_eq found]
        exact ih c hc h v (Expr.admitsAll_iff.mp admits.2 c hc)
  | literal | ref | unary | binary | replicate =>
    rw [write]
    exact ⟨rfl, h⟩

mutual
theorem exec_sameEnd (kept : Kept I D P) {f g : Frame} (h : I f g) (s : Stmt)
    (admits : s.Admits D P True) : SameEnd I ((exec s).run.run f) ((exec s).run.run g) := by
  cases s with
  | assign lhs rhs =>
    rw [run_exec_assign, run_exec_assign, kept.eval h rhs admits.2]
    cases rhs.eval g.seen with
    | error e => exact ⟨rfl, h⟩
    | ok v => exact write_sameEnd kept h lhs v admits.1
  | branch cond yes no =>
    rw [run_exec_branch, run_exec_branch, kept.eval h cond admits.1]
    cases cond.eval g.seen with
    | error e => exact ⟨rfl, h⟩
    | ok v =>
      by_cases zero : v = 0
      · simp only [if_pos zero]
        exact execAll_sameEnd kept h no admits.2.2
      · simp only [if_neg zero]
        exact execAll_sameEnd kept h yes admits.2.1
  | select test arms =>
    rw [run_exec_select, run_exec_select, kept.eval h test admits.1]
    cases test.eval g.seen with
    | error e => exact ⟨rfl, h⟩
    | ok v => exact execArms_sameEnd kept h test.shape v arms admits.2
  | nextState | nextValue =>
    rw [exec]
    exact ⟨rfl, h⟩

/-- Related frames run statements alike that admit what the relation keeps. -/
theorem execAll_sameEnd (kept : Kept I D P) {f g : Frame} (h : I f g) (ss : List Stmt)
    (admits : Stmt.AdmitsAll D P True ss) :
    SameEnd I ((execAll ss).run.run f) ((execAll ss).run.run g) := by
  cases ss with
  | nil =>
    rw [run_execAll_nil, run_execAll_nil]
    exact ⟨rfl, h⟩
  | cons s ss =>
    have first := exec_sameEnd kept h s admits.1
    rw [run_execAll_cons, run_execAll_cons]
    generalize (exec s).run.run f = x at first ⊢
    generalize (exec s).run.run g = y at first ⊢
    obtain ⟨x, f'⟩ := x
    obtain ⟨y, g'⟩ := y
    obtain ⟨same, related⟩ := first
    cases same
    cases x with
    | error e => exact ⟨rfl, related⟩
    | ok u => exact execAll_sameEnd kept related ss admits.2

theorem execArms_sameEnd (kept : Kept I D P) {f g : Frame} (h : I f g) (shape : Shape) (v : Int)
    (arms : Arms) (admits : Stmt.AdmitsArms D P True arms) :
    SameEnd I ((execArms shape v arms).run.run f) ((execArms shape v arms).run.run g) := by
  cases arms with
  | done =>
    rw [run_execArms_done, run_execArms_done]
    exact ⟨rfl, h⟩
  | otherwise body =>
    rw [execArms_otherwise]
    exact execAll_sameEnd kept h body admits
  | arm key body rest =>
    rw [execArms_arm]
    split
    · exact execAll_sameEnd kept h body admits.1
    · exact execArms_sameEnd kept h shape v rest admits.2
end

end Kept

/-! ### Frames that agree -/

/-- Two frames with the same writes that give signals of `S` the same values. -/
structure Alike (S : Signal → Prop) (f g : Frame) : Prop where
  clocked : f.clocked = g.clocked
  writes : f.writes = g.writes
  state : ∀ s, S s → f.clocked = true → f.state.value s = g.state.value s
  latest : ∀ s, S s → f.latest s = g.latest s

variable {S : Signal → Prop}

namespace Alike

variable {f g : Frame}

theorem seen (h : Alike S f g) {s : Signal} (hs : S s) : f.seen s = g.seen s := by
  cases hc : f.clocked with
  | true => rw [seen_clocked hc, seen_clocked (h.clocked ▸ hc), h.state s hs hc]
  | false => rw [seen_blocking hc, seen_blocking (h.clocked ▸ hc), h.latest s hs]

theorem stored (h : Alike S f g) (s : Signal) (v : Int) :
    Alike S (f.stored s v) (g.stored s v) where
  clocked := h.clocked
  writes := by simp only [Frame.stored, h.writes]
  state := h.state
  latest t ht := by
    rw [latest_stored, latest_stored, h.latest t ht]

theorem eval (h : Alike S f g) {e : Expr} (he : ∀ s ∈ e.mentions, S s) :
    e.eval f.seen = e.eval g.seen :=
  Expr.eval_congr e fun s hs => h.seen (he s hs)

end Alike

theorem kept_alike : Kept (Alike S) S fun e => Within S e.mentions where
  eval h _ he := h.eval he
  latest h := h.latest
  stored h := h.stored

/-- Frames without writes over states that agree. -/
theorem alike_new {σ τ : SimState} (clocked : Bool) (agree : ∀ s, S s → σ.value s = τ.value s) :
    Alike S { state := σ, clocked } { state := τ, clocked } where
  clocked := rfl
  writes := rfl
  state s hs _ := agree s hs
  latest s hs := agree s hs

/-- `S` covers all that statements with the given targets and sources read or drive. -/
structure Covers (S : Signal → Prop) (ts : List Expr) (sources : List Signal) : Prop where
  place : ∀ t ∈ ts, t.isPlace = true
  drives : ∀ s, DrivenBy ts s → S s
  sources : ∀ s ∈ sources, S s

/-- Frames that agree on what statements read and drive run them alike. -/
theorem execAll_alike {f g : Frame} (h : Alike S f g) (ss : List Stmt)
    (covers : Covers S (Stmt.targetsOf ss) (Stmt.sourcesOf ss)) :
    SameEnd (Alike S) ((execAll ss).run.run f) ((execAll ss).run.run g) :=
  execAll_sameEnd kept_alike h ss (Stmt.admitsAll_of_confined ss
    (fun t ht => ⟨.inl (covers.place t ht), fun s hs => covers.drives s ⟨t, ht, hs⟩⟩)
    covers.sources)

/-! ### Runs that come to their end -/

theorem holdsParts_ok {f : Frame} {ps : List Expr} (each : ∀ p ∈ ps, ∃ v, f.holds p = .ok v) :
    ∃ b, f.holdsParts ps = .ok b := by
  induction ps with
  | nil => exact ⟨_, rfl⟩
  | cons p ps ih =>
    obtain ⟨⟨v, hv⟩, tail⟩ := List.forall_mem_cons.mp each
    obtain ⟨w, hw⟩ := ih tail
    exact ⟨_, by rw [holdsParts, hv, hw]; rfl⟩

theorem holds_ok (f : Frame) (t : Expr) (resolved : t.refs = []) : ∃ v, f.holds t = .ok v := by
  induction t with
  | signal s => exact ⟨_, rfl⟩
  | slice a start stop ih =>
    obtain ⟨v, hv⟩ := ih resolved
    exact ⟨_, by rw [holds, hv]; rfl⟩
  | concat ps ih =>
    rw [Expr.refs, Expr.refsOf_eq, List.flatMap_eq_nil_iff] at resolved
    obtain ⟨v, hv⟩ := holdsParts_ok fun p hp => ih p hp (resolved p hp)
    exact ⟨_, by rw [holds, hv]; rfl⟩
  | mux s cs _ ih =>
    rw [Expr.refs, Expr.refsOf_eq, List.append_eq_nil_iff, List.flatMap_eq_nil_iff] at resolved
    obtain ⟨k, hk⟩ := Expr.eval_ok f.seen s resolved.1
    rw [holds, hk]
    rcases Expr.choice_cases cs k with rfl | ⟨c, hc, found⟩
    · exact ⟨_, rfl⟩
    · obtain ⟨v, hv⟩ := ih c hc (resolved.2 c hc)
      exact ⟨v, (holdsChoice_eq found).trans hv⟩
  | literal | ref | unary | binary | replicate =>
    rw [holds]
    exact Expr.eval_ok f.seen _ resolved

theorem writeParts_ends {E : Except SimFault Unit → Prop} (ok : E (.ok ())) {ps : List Expr}
    (each : ∀ p ∈ ps, ∀ (v : Int) (f : Frame), E ((write p v).run.run f).1) (bits : Nat)
    (f : Frame) : E ((writeParts ps bits).run.run f).1 := by
  induction ps generalizing bits f with
  | nil =>
    rw [run_writeParts_nil]
    exact ok
  | cons p ps ih =>
    obtain ⟨head, tail⟩ := List.forall_mem_cons.mp each
    have first := head (bits &&& mask p.width : Nat) f
    rw [run_writeParts_cons]
    generalize (write p (bits &&& mask p.width : Nat)).run.run f = ended at first ⊢
    obtain ⟨e | u, g⟩ := ended
    · exact first
    · exact ih tail _ g

/-- Storing to a target ends as storing to what its references stand for. -/
theorem write_ends {E : Except SimFault Unit → Prop} {b : DomainRef → Expr} (ok : E (.ok ()))
    (t : Expr) (target : t.isTarget = true)
    (leaves : ∀ r ∈ t.drivenRefs, ∀ (v : Int) (f : Frame), E ((write (b r) v).run.run f).1)
    (resolved : (t.bindRefs b).refs = []) (v : Int) (f : Frame) :
    E ((write (t.bindRefs b) v).run.run f).1 := by
  induction t generalizing v f with
  | signal s =>
    rw [Expr.bindRefs, run_write_signal]
    exact ok
  | ref r => exact leaves r (.head _) v f
  | slice a start stop ih =>
    rw [Expr.bindRefs] at resolved ⊢
    -- The bits around the slice are read first, and reading does not fail.
    obtain ⟨old, held⟩ := holds_ok f (a.bindRefs b) resolved
    rw [run_write_slice, held]
    exact ih target leaves resolved _ f
  | concat ps ih =>
    rw [Expr.drivenRefs, Expr.drivenRefsOf_eq, List.forall_mem_flatMap] at leaves
    rw [Expr.bindRefs, Expr.bindRefsOf_eq_map] at resolved ⊢
    rw [Expr.refs, Expr.refsOf_eq, List.flatMap_map, List.flatMap_eq_nil_iff] at resolved
    rw [run_write_concat]
    exact writeParts_ends ok (List.forall_mem_map.mpr fun p hp =>
      ih p hp (Expr.isTarget_of_mem target p hp) (leaves p hp) (resolved p hp)) _ f
  | mux s cs _ ih =>
    rw [Expr.drivenRefs, Expr.drivenRefsOf_eq, List.forall_mem_flatMap] at leaves
    rw [Expr.bindRefs, Expr.bindRefsOf_eq_map] at resolved ⊢
    rw [Expr.refs, Expr.refsOf_eq, List.append_eq_nil_iff, List.flatMap_map,
      List.flatMap_eq_nil_iff] at resolved
    obtain ⟨k, hk⟩ := Expr.eval_ok f.seen (s.bindRefs b) resolved.1
    rw [run_write_mux, hk]
    rcases Expr.choice_cases (cs.map (Expr.bindRefs b)) k with none | ⟨d, hd, found⟩
    · rw [none]
      exact ok
    · obtain ⟨c, hc, rfl⟩ := List.mem_map.mp hd
      dsimp only
      rw [writeChoice_eq found]
      exact ih c hc (Expr.isTarget_of_mem target c hc) (leaves c hc) (resolved.2 c hc) v f
  | literal | unary | binary | replicate => simp [Expr.isTarget] at target

/-- The targets can all be driven, and no expression holds an unresolved reference. -/
structure Runnable (ts es : List Expr) : Prop where
  targets : ∀ t ∈ ts, t.isTarget = true
  resolved : ∀ e ∈ es, e.refs = []

/-- How runs may end: what storing to a target can come to is as `E` says, and no expression holds
an unresolved reference. -/
structure Ends (E : Except SimFault Unit → Prop) (ts es : List Expr) : Prop where
  targets : ∀ t ∈ ts, t.refs = [] → ∀ (v : Int) (f : Frame), E ((write t v).run.run f).1
  resolved : ∀ e ∈ es, e.refs = []

section Ends

variable {E : Except SimFault Unit → Prop}

theorem Ends.left {ts us es fs : List Expr} (h : Ends E (ts ++ us) (es ++ fs)) : Ends E ts es where
  targets t ht := h.targets t (List.mem_append_left _ ht)
  resolved e he := h.resolved e (List.mem_append_left _ he)

theorem Ends.right {ts us es fs : List Expr} (h : Ends E (ts ++ us) (es ++ fs)) : Ends E us fs where
  targets t ht := h.targets t (List.mem_append_right _ ht)
  resolved e he := h.resolved e (List.mem_append_right _ he)

theorem Ends.tail {ts es : List Expr} {e : Expr} (h : Ends E ts (e :: es)) :
    e.refs = [] ∧ Ends E ts es :=
  ⟨h.resolved e (List.mem_cons_self ..), h.targets,
    fun a ha => h.resolved a (List.mem_cons_of_mem _ ha)⟩

theorem Runnable.ends {ts es : List Expr} (h : Runnable ts es) : Ends (· = .ok ()) ts es where
  targets t ht refs v f := by
    have none : t.drivenRefs = [] := List.subset_nil.mp (refs ▸ t.drivenRefs_subset_refs)
    have ended := write_ends (E := (· = .ok ())) (b := .ref) rfl t (h.targets t ht)
      (by simp [none]) (by rwa [t.bindRefs_ref]) v f
    rwa [t.bindRefs_ref] at ended
  resolved := h.resolved

mutual
theorem exec_ends (ok : E (.ok ())) (s : Stmt) (f : Frame) (plain : s.sugar? = none)
    (ends : Ends E s.targets s.exprs) : E ((exec s).run.run f).1 := by
  cases s with
  | assign lhs rhs =>
    have refs_of : ∀ e ∈ [lhs, rhs], e.refs = [] := ends.resolved
    obtain ⟨v, hv⟩ := Expr.eval_ok f.seen rhs (refs_of rhs (by simp))
    rw [run_exec_assign, hv]
    exact ends.targets lhs (by simp [Stmt.targets]) (refs_of lhs (by simp)) v f
  | branch cond yes no =>
    have ends : Ends E (Stmt.targetsOf yes ++ Stmt.targetsOf no)
        (cond :: (Stmt.exprsOf yes ++ Stmt.exprsOf no)) := ends
    obtain ⟨refs, inner⟩ := ends.tail
    obtain ⟨hyes, hno⟩ := Option.or_eq_none_iff.mp plain
    obtain ⟨v, hv⟩ := Expr.eval_ok f.seen cond refs
    rw [run_exec_branch, hv]
    by_cases zero : v = 0
    · simp only [if_pos zero]
      exact execAll_ends ok no f hno inner.right
    · simp only [if_neg zero]
      exact execAll_ends ok yes f hyes inner.left
  | select test arms =>
    have ends : Ends E (Stmt.targetsOfArms arms) (test :: Stmt.exprsOfArms arms) := ends
    obtain ⟨refs, inner⟩ := ends.tail
    obtain ⟨v, hv⟩ := Expr.eval_ok f.seen test refs
    rw [run_exec_select, hv]
    exact execArms_ends ok test.shape v arms f plain inner
  | nextState s => simp [Stmt.sugar?] at plain
  | nextValue t v => simp [Stmt.sugar?] at plain

/-- Whatever a run stops at, it is a target that stopped it. -/
theorem execAll_ends (ok : E (.ok ())) (ss : List Stmt) (f : Frame)
    (plain : Stmt.sugarOf? ss = none) (ends : Ends E (Stmt.targetsOf ss) (Stmt.exprsOf ss)) :
    E ((execAll ss).run.run f).1 := by
  cases ss with
  | nil =>
    rw [run_execAll_nil]
    exact ok
  | cons s ss =>
    obtain ⟨hs, hss⟩ := Option.or_eq_none_iff.mp plain
    have first := exec_ends ok s f hs (Ends.left ends)
    rw [run_execAll_cons]
    generalize (exec s).run.run f = ended at first ⊢
    obtain ⟨e | u, g⟩ := ended
    · exact first
    · exact execAll_ends ok ss g hss (Ends.right ends)

theorem execArms_ends (ok : E (.ok ())) (shape : Shape) (v : Int) (arms : Arms) (f : Frame)
    (plain : Stmt.sugarOfArms? arms = none)
    (ends : Ends E (Stmt.targetsOfArms arms) (Stmt.exprsOfArms arms)) :
    E ((execArms shape v arms).run.run f).1 := by
  cases arms with
  | done =>
    rw [run_execArms_done]
    exact ok
  | otherwise body =>
    rw [execArms_otherwise]
    exact execAll_ends ok body f plain ends
  | arm key body rest =>
    obtain ⟨hb, hr⟩ := Option.or_eq_none_iff.mp plain
    rw [execArms_arm]
    split
    · exact execAll_ends ok body f hb (Ends.left ends)
    · exact execArms_ends ok shape v rest f hr (Ends.right ends)
end

end Ends

/-- Statements without faults in them run to their end. -/
theorem execAll_ok (ss : List Stmt) (f : Frame) (plain : Stmt.sugarOf? ss = none)
    (runnable : Runnable (Stmt.targetsOf ss) (Stmt.exprsOf ss)) :
    ((execAll ss).run.run f).1 = .ok () :=
  execAll_ends (E := (· = .ok ())) rfl ss f plain runnable.ends

end Frame

end Gateware
