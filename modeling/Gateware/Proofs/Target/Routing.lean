import Gateware.Proofs.Folding.Overwrite

/-!
# Where stored bits go

What is stored into a target is cut up, and each bit of a signal gets one bit of the number or none.
This holds of every target that can be driven: slices may reach beyond what they cut, choices may
differ in width, and one signal may stand in several parts of a concatenation, where the last one
decides.

## Main results

`write_routes`: storing a number into a target of a clocked frame gives every bit of a signal the
bit of the number that `Expr.bitFor` names, and leaves it alone where there is none.

## Proof strategy

`Expr.bitFor` follows a bit of a signal up through the target, and `Frame.Routed` says what storing
a pattern along such a map does. A slice stores what was there with a window replaced, so a bit that
leads outside of the window gets what it had. This is why the map follows single bits and not the
list of all of them, in which a bit could stand twice.
-/
namespace Gateware

/-- A bit of a signal. -/
abbrev Position := Signal × Nat

namespace Expr

/-- A target made of signals, whose selectors hold no references. -/
inductive Storable : Expr → Prop
  | signal (s : Signal) : Storable (.signal s)
  | slice {a : Expr} (inner : Storable a) (start stop : Nat) : Storable (.slice a start stop)
  | concat {ps : List Expr} (parts : ∀ p ∈ ps, Storable p) : Storable (.concat ps)
  | mux {q : Expr} {cs : List Expr} (resolved : q.refs = []) (choices : ∀ c ∈ cs, Storable c) :
    Storable (.mux q cs)

theorem storable_of_isTarget (t : Expr) (target : t.isTarget = true) (resolved : t.refs = []) :
    t.Storable := by
  induction t with
  | signal s => exact .signal s
  | slice a start stop ih => exact .slice (ih target resolved) start stop
  | concat ps ih =>
    rw [refs, refsOf_eq, List.flatMap_eq_nil_iff] at resolved
    exact .concat fun p hp => ih p hp (isTarget_of_mem target p hp) (resolved p hp)
  | mux q cs _ ih =>
    rw [refs, refsOf_eq, List.append_eq_nil_iff, List.flatMap_eq_nil_iff] at resolved
    exact .mux resolved.1 fun c hc => ih c hc (isTarget_of_mem target c hc) (resolved.2 c hc)
  | ref r => simp [refs] at resolved
  | literal | unary | binary | replicate => simp [isTarget] at target

mutual
/-- The bit of a stored number that a bit of a signal gets, if it gets one. -/
def bitFor (ρ : Valuation) : Expr → Position → Option Nat
  | .signal s, p => if p.1 = s ∧ p.2 < s.width then some p.2 else none
  | .slice a start stop, p =>
    (a.bitFor ρ p).bind fun i => if start ≤ i ∧ i < stop then some (i - start) else none
  | .concat ps, p => bitForOf ρ ps p
  | .mux q cs, p => (q.eval ρ).toOption.bind fun k => bitForAt ρ cs (choiceIndex k cs.length) p
  | _, _ => none

def bitForOf (ρ : Valuation) : List Expr → Position → Option Nat
  | [], _ => none
  | q :: qs, p => ((bitForOf ρ qs p).map (q.width + ·)).or (q.bitFor ρ p)

def bitForAt (ρ : Valuation) : List Expr → Nat → Position → Option Nat
  | [], _, _ => none
  | c :: _, 0, p => c.bitFor ρ p
  | _ :: cs, i + 1, p => bitForAt ρ cs i p
end

mutual
/-- The signals that storing into a target sets, be it to what they were. -/
def reached (ρ : Valuation) : Expr → List Signal
  | .signal s => [s]
  | .slice a _ _ => a.reached ρ
  | .concat ps => reachedOf ρ ps
  | .mux q cs => (q.eval ρ).toOption.elim [] fun k => reachedAt ρ cs (choiceIndex k cs.length)
  | _ => []

def reachedOf (ρ : Valuation) : List Expr → List Signal
  | [] => []
  | p :: ps => p.reached ρ ++ reachedOf ρ ps

def reachedAt (ρ : Valuation) : List Expr → Nat → List Signal
  | [], _ => []
  | c :: _, 0 => c.reached ρ
  | _ :: cs, i + 1 => reachedAt ρ cs i
end

variable {ρ : Valuation} {q c t : Expr} {cs ps : List Expr} {k : Int} {i start stop : Nat}
  {p : Position}

theorem bitFor_signal {s : Signal} :
    (Expr.signal s).bitFor ρ p = some i ↔ p = (s, i) ∧ i < s.width := by
  rw [bitFor, Option.ite_none_right_eq_some]
  grind

theorem bitFor_slice {a : Expr} : (Expr.slice a start stop).bitFor ρ p = some i ↔
    a.bitFor ρ p = some (start + i) ∧ i < stop - start := by
  simp only [bitFor, Option.bind_eq_some_iff, Option.ite_none_right_eq_some]
  grind

theorem bitForAt_eq (found : cs[i]? = some c) : bitForAt ρ cs i = c.bitFor ρ :=
  choice_eq (bitForAt ρ) (bitFor ρ) (fun _ _ => rfl) (fun _ _ _ => rfl) found

theorem reachedAt_eq (found : cs[i]? = some c) : reachedAt ρ cs i = c.reached ρ :=
  choice_eq (reachedAt ρ) (reached ρ) (fun _ _ => rfl) (fun _ _ _ => rfl) found

theorem reached_mux (value : q.eval ρ = .ok k) :
    (Expr.mux q cs).reached ρ = reachedAt ρ cs (choiceIndex k cs.length) := by
  rw [reached, value]
  rfl

theorem bitFor_mux (value : q.eval ρ = .ok k) (found : cs[choiceIndex k cs.length]? = some c) :
    (Expr.mux q cs).bitFor ρ = c.bitFor ρ := by
  funext p
  rw [bitFor, value]
  exact congrFun (bitForAt_eq found) p

/-- A choice is as wide as its widest branch. -/
theorem width_le_mux (hc : c ∈ cs) : c.width ≤ (Expr.mux q cs).width := by
  have widest (es : List Expr) (acc : Nat) :
      acc ≤ (shapes es).foldl (fun w s => max w s.width) acc ∧
      ∀ e ∈ es, e.width ≤ (shapes es).foldl (fun w s => max w s.width) acc := by
    induction es generalizing acc with
    | nil => exact ⟨Nat.le_refl _, fun e he => absurd he List.not_mem_nil⟩
    | cons e es ih =>
      obtain ⟨above, each⟩ := ih (max acc e.width)
      refine ⟨Nat.le_trans (Nat.le_max_left ..) above, List.forall_mem_cons.mpr ⟨?_, each⟩⟩
      exact Nat.le_trans (Nat.le_max_right ..) above
  exact (widest cs 0).2 c hc

theorem bitForOf_lt (each : ∀ e ∈ ps, ∀ i, e.bitFor ρ p = some i → i < e.width)
    (h : bitForOf ρ ps p = some i) : i < (Expr.concat ps).width := by
  induction ps generalizing i with
  | nil => cases h
  | cons e es ih =>
    obtain ⟨head, tail⟩ := List.forall_mem_cons.mp each
    rw [width_concat_cons]
    -- The bit comes from a later part, which stands above the first one, or from the first part.
    rcases Option.or_eq_some_iff.mp h with late | ⟨-, early⟩
    · obtain ⟨j, found, rfl⟩ := Option.map_eq_some_iff.mp late
      exact Nat.add_lt_add_left (ih tail found) _
    · exact Nat.lt_add_right _ (head i early)

namespace Storable

/-- A choice stands for one of the targets it chooses from, if there is any. -/
theorem mux_cases (resolved : q.refs = []) (ρ : Valuation) (cs : List Expr) :
    ∃ k, q.eval ρ = .ok k ∧
      (cs = [] ∨ ∃ c ∈ cs, cs[choiceIndex k cs.length]? = some c ∧
        (Expr.mux q cs).bitFor ρ = c.bitFor ρ ∧ (Expr.mux q cs).reached ρ = c.reached ρ) := by
  obtain ⟨k, value⟩ := eval_ok ρ q resolved
  refine ⟨k, value, (choice_cases cs k).imp_right ?_⟩
  rintro ⟨c, hc, found⟩
  rw [bitFor_mux value found, reached_mux value]
  exact ⟨c, hc, found, rfl, reachedAt_eq found⟩

/-- Only bits within the width of a target are stored. -/
theorem bitFor_lt (storable : t.Storable) (ρ : Valuation) {p : Position} {i : Nat}
    (h : t.bitFor ρ p = some i) : i < t.width := by
  induction storable generalizing i with
  | signal s => exact (bitFor_signal.mp h).2
  | slice _ start stop => exact (bitFor_slice.mp h).2
  | concat _ ih => exact bitForOf_lt (fun e he i => ih e he) h
  | @mux q cs resolved _ ih =>
    obtain ⟨k, value, rfl | ⟨c, hc, -, same, -⟩⟩ := mux_cases resolved ρ cs
    · rw [bitFor, value] at h
      cases h
    · exact Nat.lt_of_lt_of_le (ih c hc (same ▸ h)) (width_le_mux hc)

end Storable

end Expr

/-! ### Patterns -/

/-- The low bits of a pattern that is cut later are those of one that is cut earlier. -/
theorem testBit_toBits_of_le (v : Int) {u w i : Nat} (inside : i < u) (le : u ≤ w) :
    (toBits v w).testBit i = (toBits v u).testBit i := by
  rw [← toBits_mod v le, Nat.testBit_mod_two_pow, decide_eq_true inside, Bool.true_and]

/-- Replacing a window changes the bits in it, wherever the window ends. -/
theorem testBit_replaceField {old new w start stop i : Nat} (inside : i < w) :
    (Frame.replaceField old new w start stop).testBit i =
      if start ≤ i ∧ i < stop then new.testBit (i - start) else old.testBit i := by
  simp only [Frame.replaceField, Nat.testBit_or, Nat.testBit_and, Nat.testBit_xor,
    Nat.testBit_shiftLeft, testBit_mask]
  grind

namespace Frame

/-! ### Reading -/

/-- The value of a bit, with the writes taken into account. -/
def bitAt (f : Frame) (p : Position) : Bool := (toBits (f.latest p.1) p.1.width).testBit p.2

/-- Signals with the same bits have the same value, once it is cut to the shape. -/
theorem wrap_latest_eq {f g : Frame} {s : Signal} (same : ∀ k, g.bitAt (s, k) = f.bitAt (s, k)) :
    s.shape.wrap (g.latest s) = s.shape.wrap (f.latest s) :=
  s.shape.wrap_congr (Nat.eq_of_testBit_eq same)

theorem latest_eq_of_bits {f g : Frame} {s : Signal} (same : ∀ k, g.bitAt (s, k) = f.bitAt (s, k))
    (after : s.shape.Holds (g.latest s)) (before : s.shape.Holds (f.latest s)) :
    g.latest s = f.latest s := by
  have cut := wrap_latest_eq same
  rwa [Shape.wrap_eq_self_iff.mpr after, Shape.wrap_eq_self_iff.mpr before] at cut

/-- Where a map leads to bits of the pattern, these are the bits that the frame has. -/
def Collects (f : Frame) (route : Position → Option Nat) (bits : Nat) : Prop :=
  ∀ p i, route p = some i → bits.testBit i = f.bitAt p

theorem Collects.append {f : Frame} {route next : Position → Option Nat} {a b w : Nat}
    (first : f.Collects route a) (second : f.Collects next b)
    (lt : ∀ p i, route p = some i → i < w) (bound : a < 2 ^ w) :
    f.Collects (fun p => ((next p).map (w + ·)).or (route p)) (a ||| b <<< w) := by
  intro p i h
  rw [testBit_beside bound]
  rcases Option.or_eq_some_iff.mp h with late | ⟨-, early⟩
  · obtain ⟨j, found, rfl⟩ := Option.map_eq_some_iff.mp late
    rw [if_neg (by omega), Nat.add_sub_cancel_left]
    exact second p j found
  · rw [if_pos (lt p i early)]
    exact first p i early

theorem holdsParts_collects {f : Frame} {ps : List Expr}
    (lt : ∀ e ∈ ps, ∀ p i, e.bitFor f.seen p = some i → i < e.width)
    (each : ∀ e ∈ ps, ∃ o, f.holds e = .ok o ∧ f.Collects (e.bitFor f.seen) (toBits o e.width)) :
    ∃ b, f.holdsParts ps = .ok b ∧ b < 2 ^ (Expr.concat ps).width ∧
      f.Collects (Expr.bitForOf f.seen ps) b := by
  induction ps with
  | nil =>
    refine ⟨0, by rw [holdsParts], Nat.two_pow_pos _, fun p i h => ?_⟩
    cases h
  | cons e es ih =>
    obtain ⟨⟨o, first, low⟩, others⟩ := List.forall_mem_cons.mp each
    obtain ⟨head, tail⟩ := List.forall_mem_cons.mp lt
    obtain ⟨b, later, bound, high⟩ := ih tail others
    exact ⟨_, by rw [holdsParts, first, later]; rfl, beside_lt (toBits_lt ..) bound,
      low.append high head (toBits_lt ..)⟩

/-- Reading a target back collects the bits that would be stored there. -/
theorem holds_collects {t : Expr} (storable : t.Storable) (f : Frame) :
    ∃ o, f.holds t = .ok o ∧ f.Collects (t.bitFor f.seen) (toBits o t.width) := by
  induction storable with
  | signal s =>
    refine ⟨f.latest s, by rw [holds], fun p i h => ?_⟩
    obtain ⟨rfl, -⟩ := Expr.bitFor_signal.mp h
    rfl
  | @slice a _ start stop ih =>
    obtain ⟨o, found, collects⟩ := ih
    refine ⟨_, by rw [holds, found]; rfl, fun p i h => ?_⟩
    obtain ⟨inner, inside⟩ := Expr.bitFor_slice.mp h
    have kept : toBits ((Expr.slice a start stop).shape.wrap (field (toBits o a.width) start stop))
        (Expr.slice a start stop).width = field (toBits o a.width) start stop :=
      (Shape.toBits_wrap ..).trans (toBits_of_lt (field_lt ..))
    rw [kept, testBit_field, decide_eq_true inside, Bool.true_and, collects p _ inner]
  | concat parts ih =>
    obtain ⟨b, found, lt, collects⟩ :=
      holdsParts_collects (fun e he p i => (parts e he).bitFor_lt f.seen) ih
    refine ⟨b, by rw [holds, found]; rfl, ?_⟩
    rwa [toBits_of_lt lt]
  | @mux q cs resolved choices ih =>
    obtain ⟨k, value, rfl | ⟨c, hc, counted, same, -⟩⟩ :=
      Expr.Storable.mux_cases resolved f.seen cs
    · refine ⟨0, by rw [holds, value]; rfl, fun p i h => ?_⟩
      rw [Expr.bitFor, value] at h
      cases h
    · obtain ⟨o, found, collects⟩ := ih c hc
      refine ⟨o, ?_, fun p i h => ?_⟩
      · rw [holds, value]
        exact (holdsChoice_eq counted).trans found
      · -- The choice may be wider than the branch, but no bit of the branch lies beyond it.
        rw [same] at h
        rw [testBit_toBits_of_le o ((choices c hc).bitFor_lt _ h) (Expr.width_le_mux hc)]
        exact collects p i h

/-! ### Storing -/

/-- What storing a pattern along a map does to a frame. A bit that the map leads on gets that bit of
the pattern and all others are as they were; the given signals have numbers of their shapes and all
others are not touched. -/
structure Routed (f g : Frame) (signals : List Signal) (route : Position → Option Nat)
    (bits : Nat) : Prop where
  state : g.state = f.state
  clocked : g.clocked = f.clocked
  routed : ∀ p i, route p = some i → g.bitAt p = bits.testBit i
  kept : ∀ p, route p = none → g.bitAt p = f.bitAt p
  ranged : ∀ s ∈ signals, s.shape.Holds (g.latest s)
  others : ∀ s ∉ signals, g.latest s = f.latest s

namespace Routed

variable {f g h : Frame} {rs ss : List Signal} {route next : Position → Option Nat}
  {a b c w start stop : Nat}

theorem nil (f : Frame) (bits : Nat) : Routed f f [] (fun _ => none) bits where
  state := rfl
  clocked := rfl
  routed _ _ h := by cases h
  kept _ _ := rfl
  ranged s hs := absurd hs List.not_mem_nil
  others _ _ := rfl

theorem stored (f : Frame) (s : Signal) (v : Int) (ρ : Valuation) :
    Routed f (f.stored s v) [s] ((Expr.signal s).bitFor ρ) (toBits v s.width) where
  state := rfl
  clocked := rfl
  routed p i h := by
    obtain ⟨rfl, -⟩ := Expr.bitFor_signal.mp h
    rw [bitAt, latest_stored, if_pos rfl]
    exact congrArg (Nat.testBit · i) (s.shape.toBits_wrap v)
  kept p h := by
    rw [bitAt, bitAt, latest_stored]
    split
    next same =>
      -- A bit of the signal that gets none lies beyond its width.
      have beyond : p.1.width ≤ p.2 := by
        refine Nat.not_lt.mp fun inside => ?_
        cases h.symm.trans (Expr.bitFor_signal.mpr ⟨Prod.ext same rfl, same ▸ inside⟩)
      rw [testBit_eq_false_of_lt (toBits_lt ..) beyond,
        testBit_eq_false_of_lt (toBits_lt ..) beyond]
    next => rfl
  ranged t ht := by
    obtain rfl := List.mem_singleton.mp ht
    rw [latest_stored, if_pos rfl]
    exact Shape.wrap_eq_self_iff.mp (t.shape.wrap_wrap v)
  others t ht := by
    rw [latest_stored, if_neg fun same => ht (List.mem_singleton.mpr same)]

/-- Two patterns stored one after the other. Where both go, the second one stays. -/
theorem append (first : Routed f g rs route a) (second : Routed g h ss next b)
    (lt : ∀ p i, route p = some i → i < w) (low : ∀ i < w, c.testBit i = a.testBit i)
    (high : ∀ i, c.testBit (w + i) = b.testBit i) :
    Routed f h (rs ++ ss) (fun p => ((next p).map (w + ·)).or (route p)) c where
  state := second.state.trans first.state
  clocked := second.clocked.trans first.clocked
  routed p i found := by
    rcases Option.or_eq_some_iff.mp found with late | ⟨late, early⟩
    · obtain ⟨j, led, rfl⟩ := Option.map_eq_some_iff.mp late
      rw [second.routed p j led, high]
    · rw [second.kept p (Option.map_eq_none_iff.mp late), first.routed p i early,
        low i (lt p i early)]
  kept p none := by
    obtain ⟨late, early⟩ := Option.or_eq_none_iff.mp none
    rw [second.kept p (Option.map_eq_none_iff.mp late), first.kept p early]
  ranged s hs := by
    by_cases later : s ∈ ss
    · exact second.ranged s later
    · rw [second.others s later]
      exact first.ranged s ((List.mem_append.mp hs).resolve_right later)
  others s hs := by
    obtain ⟨left, right⟩ := not_or.mp (mt List.mem_append.mpr hs)
    rw [second.others s right, first.others s left]

/-- Storing what was there with a window replaced is storing into the window. -/
theorem window {e : Expr} {ρ : Valuation} {old new : Nat}
    (lt : ∀ p i, e.bitFor ρ p = some i → i < e.width) (found : f.Collects (e.bitFor ρ) old)
    (whole : Routed f g rs (e.bitFor ρ)
      (toBits (replaceField old new e.width start stop) e.width)) :
    Routed f g rs ((Expr.slice e start stop).bitFor ρ) new := by
  have bit (p : Position) (i : Nat) (h : e.bitFor ρ p = some i) : g.bitAt p =
      if start ≤ i ∧ i < stop then new.testBit (i - start) else old.testBit i := by
    rw [whole.routed p i h, toBits_ofNat, Nat.testBit_mod_two_pow, decide_eq_true (lt p i h),
      Bool.true_and, testBit_replaceField (lt p i h)]
  refine ⟨whole.state, whole.clocked, fun p i h => ?_, fun p h => ?_, whole.ranged, whole.others⟩
  · obtain ⟨inner, inside⟩ := Expr.bitFor_slice.mp h
    rw [bit p _ inner, if_pos (by omega), Nat.add_sub_cancel_left]
  · cases inner : e.bitFor ρ p with
    | none => exact whole.kept p inner
    | some i =>
      -- The bit leads outside of the window, so it was stored as it was found.
      have outside : ¬ (start ≤ i ∧ i < stop) := by
        rintro ⟨above, below⟩
        cases h.symm.trans (Expr.bitFor_slice.mpr
          ⟨inner.trans (congrArg some (Nat.add_sub_cancel' above).symm), by omega⟩)
      rw [bit p i inner, if_neg outside, found p i inner]

end Routed

theorem writeParts_routes {ps : List Expr} (parts : ∀ e ∈ ps, e.Storable)
    (each : ∀ e ∈ ps, ∀ (v : Int) {f : Frame}, f.clocked = true →
      ∃ g, (write e v).run.run f = (.ok (), g) ∧
        Routed f g (e.reached f.state.value) (e.bitFor f.state.value) (toBits v e.width))
    (bits : Nat) {f : Frame} (clocked : f.clocked = true) :
    ∃ g, (writeParts ps bits).run.run f = (.ok (), g) ∧
      Routed f g (Expr.reachedOf f.state.value ps) (Expr.bitForOf f.state.value ps) bits := by
  induction ps generalizing bits f with
  | nil => exact ⟨f, run_writeParts_nil bits f, .nil f bits⟩
  | cons e es ih =>
    obtain ⟨head, tail⟩ := List.forall_mem_cons.mp parts
    obtain ⟨first, others⟩ := List.forall_mem_cons.mp each
    obtain ⟨g, run, routed⟩ := first (bits &&& mask e.width : Nat) clocked
    obtain ⟨h, later, final⟩ := ih tail others (bits >>> e.width) (routed.clocked.trans clocked)
    refine ⟨h, by rw [run_writeParts_cons, run]; exact later, ?_⟩
    -- The first part left the state alone, so the others lead where they led before.
    rw [routed.state] at final
    refine routed.append final (fun p i => head.bitFor_lt _) (fun i hi => ?_) fun i => ?_
    · rw [toBits_ofNat, Nat.testBit_mod_two_pow, Nat.testBit_and, testBit_mask]
      simp [hi]
    · rw [Nat.testBit_shiftRight]

/-- Storing a number into a target gives every bit of a signal its bit of the number, if there is
one, and changes nothing else. -/
theorem write_routes {t : Expr} (storable : t.Storable) (v : Int) {f : Frame}
    (clocked : f.clocked = true) :
    ∃ g, (write t v).run.run f = (.ok (), g) ∧
      Routed f g (t.reached f.state.value) (t.bitFor f.state.value) (toBits v t.width) := by
  induction storable generalizing v f with
  | signal s => exact ⟨f.stored s v, run_write_signal s v f, .stored f s v _⟩
  | @slice a inner start stop ih =>
    -- The target below is read back and stored as a whole. Both go by the selectors of the state.
    obtain ⟨o, found, collects⟩ := holds_collects inner f
    rw [seen_clocked clocked] at collects
    obtain ⟨g, run, routed⟩ := ih (replaceField (toBits o a.width) (toBits v (stop - start)) a.width
      start stop) clocked
    refine ⟨g, by rw [run_write_slice, found]; exact run, ?_⟩
    exact routed.window (fun p i => inner.bitFor_lt _) collects
  | @concat ps parts ih =>
    obtain ⟨g, run, routed⟩ := writeParts_routes parts ih (toBits v (Expr.concat ps).width) clocked
    exact ⟨g, by rw [run_write_concat]; exact run, routed⟩
  | @mux q cs resolved choices ih =>
    obtain ⟨k, value, rfl | ⟨c, hc, counted, same, signals⟩⟩ :=
      Expr.Storable.mux_cases resolved f.state.value cs
    · refine ⟨f, ?_, ?_⟩
      · rw [run_write_mux, seen_clocked clocked, value]
        exact run_writeChoice_nil _ v f
      · have nowhere : (Expr.mux q []).bitFor f.state.value = fun _ => none := by
          funext p
          rw [Expr.bitFor, value]
          rfl
        rw [nowhere, Expr.reached_mux value]
        exact .nil f _
    · obtain ⟨g, run, routed⟩ := ih c hc v clocked
      refine ⟨g, ?_, ?_⟩
      · rw [run_write_mux, seen_clocked clocked, value]
        dsimp only
        rw [writeChoice_eq counted]
        exact run
      · -- The branch may be narrower than the choice, and takes the low bits of what is stored.
        rw [same, signals]
        refine { routed with routed := fun p i h => ?_ }
        rw [routed.routed p i h,
          testBit_toBits_of_le v ((choices c hc).bitFor_lt _ h) (Expr.width_le_mux hc)]

/-- Of a number that is stored into a target only the pattern matters. -/
theorem write_congr {t : Expr} (storable : t.Storable) {v v' : Int}
    (same : toBits v t.width = toBits v' t.width) (f : Frame) :
    (write t v).run.run f = (write t v').run.run f := by
  induction storable generalizing v v' f with
  | signal s =>
    rw [run_write_signal, run_write_signal, stored, stored, s.shape.wrap_congr same]
  | @slice a _ start stop _ =>
    have cut : toBits v (stop - start) = toBits v' (stop - start) := same
    rw [run_write_slice, run_write_slice, cut]
  | concat => rw [run_write_concat, run_write_concat, same]
  | @mux q cs resolved _ ih =>
    obtain ⟨k, value, rfl | ⟨c, hc, counted, -, -⟩⟩ := Expr.Storable.mux_cases resolved f.seen cs
    · rw [run_write_mux, run_write_mux, value]
      exact (run_writeChoice_nil ..).trans (run_writeChoice_nil ..).symm
    · have narrow : toBits v c.width = toBits v' c.width := by
        rw [← toBits_mod v (Expr.width_le_mux (q := q) hc), same,
          toBits_mod _ (Expr.width_le_mux hc)]
      rw [run_write_mux, run_write_mux, value]
      dsimp only
      rw [writeChoice_eq counted, writeChoice_eq counted]
      exact ih c hc narrow f

end Frame

end Gateware
