import Gateware.Proofs.Mentions
import Gateware.Proofs.Target.Positions

/-!
# Targets in normal form

Bringing a target into normal form pushes slices inward until they cut signals only. The normal form
stands for the same bits, so storing into it does the same, with one exception: storing into a slice
rewrites all of what is cut, and a signal that lies outside of the slice is then cut to its shape.
The normal form leaves such a signal alone.

## Main results

`write_normal_iff`: storing into the normal form of a target of a clocked frame leaves every signal
with the bits that storing into the target leaves, and with the same value exactly if the signal had
a number of its shape, or both rewrite it, or neither does.

`unshaped_signal_differs`: the exception occurs.

## Proof strategy

`Expr.NormalFor` says that a target is normal and tidy and stands for given bits. It is proved for
each step of the simplification: for slices of signals, for the parts that a window covers
(`narrowParts_for`), for choices, and so for all normal targets (`narrow_narrowed`). What a store
does to the bits of a frame depends on the bits of the target alone (`Frame.write_wrote`).
-/
namespace Gateware

/-! ### Windows of lists -/

section Windows

variable {α : Type} (xs ys : List α)

theorem window_whole {n : Nat} (length : xs.length = n) : (xs.drop 0).take (n - 0) = xs := by
  rw [List.drop_zero, Nat.sub_zero, ← length, List.take_length]

theorem window_window {base top start stop : Nat} (inside : stop ≤ top - base) :
    ((((xs.drop base).take (top - base)).drop start).take (stop - start)) =
      (xs.drop (base + start)).take (base + stop - (base + start)) := by
  rw [List.drop_take, List.drop_drop, List.take_take]
  congr 1
  omega

/-- A window over two lists side by side, of which the first one begins at `lo`. -/
theorem window_append {w : Nat} (length : xs.length = w) (lo start stop : Nat)
    (order : start ≤ stop) :
    ((xs ++ ys).drop (start - lo)).take (stop - lo - (start - lo)) =
      (xs.drop (max start lo - lo)).take (min stop (lo + w) - lo - (max start lo - lo)) ++
        (ys.drop (start - (lo + w))).take (stop - (lo + w) - (start - (lo + w))) := by
  have first : max start lo - lo = start - lo := by omega
  rw [List.drop_append, List.take_append, length, List.length_drop, length, first]
  congr 1
  · rw [List.take_eq_take_iff, List.length_drop, length]
    omega
  · congr 1
    · omega
    · congr 1
      omega

end Windows

namespace Expr

/-! ### Normal targets -/

/-- A target built from signals and slices of signals by concatenations and choices. -/
inductive Normal : Expr → Prop
  | signal (s : Signal) : Normal (.signal s)
  | slice (s : Signal) (start stop : Nat) : Normal (.slice (.signal s) start stop)
  | concat {ps : List Expr} (parts : ∀ p ∈ ps, Normal p) : Normal (.concat ps)
  | mux {q : Expr} {cs : List Expr} (choices : ∀ c ∈ cs, Normal c) : Normal (.mux q cs)

/-- A normal target that drives none but the given signals and stands for the given bits. -/
structure NormalFor (t : Expr) (signals : List Signal) (bits : Valuation → List Position) :
    Prop where
  normal : t.Normal
  tidy : t.Tidy
  drives : t.drives ⊆ signals
  positions : ∀ ρ, t.positions ρ = bits ρ

/-- A normal target for bits `start` up to `stop` of another target. -/
abbrev Narrowed (e : Expr) (start stop : Nat) (t : Expr) : Prop :=
  t.NormalFor e.drives fun ρ => ((e.positions ρ).drop start).take (stop - start)

/-- Normal parts that drive none but the given signals, no two of them the same, and stand for the
given bits side by side. -/
structure PartsFor (ps : List Expr) (signals : List Signal) (bits : Valuation → List Position) :
    Prop where
  normal : ∀ p ∈ ps, p.Normal
  tidy : ∀ p ∈ ps, p.Tidy
  apart : ps.Pairwise fun p q => ∀ s ∈ p.drives, s ∉ q.drives
  drives : drivesOf ps ⊆ signals
  positions : ∀ ρ, positionsOf ρ ps = bits ρ

variable {e t q : Expr} {ps cs : List Expr} {start stop : Nat}

theorem NormalFor.width {signals : List Signal} {bits : Valuation → List Position}
    (h : t.NormalFor signals bits) (ρ : Valuation) : t.width = (bits ρ).length := by
  rw [← h.tidy.length_positions ρ, h.positions]

theorem Narrowed.whole (normal : e.Normal) (tidy : e.Tidy) (all : start = 0 ∧ stop = e.width) :
    Narrowed e start stop e where
  normal := normal
  tidy := tidy
  drives := List.Subset.refl _
  positions ρ := by
    rw [all.1, all.2]
    exact (window_whole _ (tidy.length_positions ρ)).symm

/-- A narrowed target has as many bits as the window. -/
theorem Narrowed.width (h : Narrowed e start stop t) (tidy : e.Tidy) (inside : stop ≤ e.width) :
    t.width = stop - start := by
  rw [NormalFor.width h fun _ => 0, List.length_take, List.length_drop, tidy.length_positions]
  omega

theorem not_mem_drivesOf {p : Expr} (apart : ∀ q ∈ ps, ∀ s ∈ p.drives, s ∉ q.drives) :
    ∀ s ∈ p.drives, s ∉ drivesOf ps := by
  intro s hs shared
  rw [drivesOf_eq] at shared
  obtain ⟨q, hq, driven⟩ := List.mem_flatMap.mp shared
  exact apart q hq s hs driven

namespace PartsFor

variable {signals signals' : List Signal} {bits bits' : Valuation → List Position}

theorem nil (signals : List Signal) : PartsFor [] signals fun _ => [] where
  normal _ hp := absurd hp List.not_mem_nil
  tidy _ hp := absurd hp List.not_mem_nil
  apart := .nil
  drives := List.nil_subset _
  positions _ := rfl

theorem cons (first : t.NormalFor signals bits) (rest : PartsFor ps signals' bits')
    (apart : ∀ s ∈ signals, s ∉ signals') :
    PartsFor (t :: ps) (signals ++ signals') fun ρ => bits ρ ++ bits' ρ where
  normal := List.forall_mem_cons.mpr ⟨first.normal, rest.normal⟩
  tidy := List.forall_mem_cons.mpr ⟨first.tidy, rest.tidy⟩
  apart := by
    refine List.pairwise_cons.mpr ⟨fun p hp s hs shared => ?_, rest.apart⟩
    refine apart s (first.drives hs) (rest.drives ?_)
    rw [drivesOf_eq]
    exact List.mem_flatMap.mpr ⟨p, hp, shared⟩
  drives := append_subset_append first.drives rest.drives
  positions ρ := by rw [positionsOf, first.positions, rest.positions]

theorem concat (h : PartsFor ps signals bits) : (Expr.concat ps).NormalFor signals bits where
  normal := .concat h.normal
  tidy := .concat h.tidy h.apart
  drives := h.drives
  positions := h.positions

/-- A single part need not be wrapped. -/
theorem join (h : PartsFor ps signals bits) : (Expr.join ps).NormalFor signals bits := by
  rcases ps with _ | ⟨p, _ | ⟨p', ps⟩⟩
  · exact h.concat
  · have only := h.positions
    have driven := h.drives
    rw [drivesOf, drivesOf, List.append_nil] at driven
    simp only [positionsOf, List.append_nil] at only
    exact ⟨h.normal p (.head _), h.tidy p (.head _), driven, only⟩
  · exact h.concat

end PartsFor

theorem narrowAll_eq (cs : List Expr) (start stop : Nat) :
    narrowAll cs start stop = cs.map (·.narrow start stop) := by
  induction cs with
  | nil => rfl
  | cons c cs ih => rw [narrowAll, ih, List.map_cons]

/-- Choices are treated alike, so that the selector still picks the right bits. -/
theorem NormalFor.mux {f : Expr → Expr} {g : List Position → List Position} {w : Nat}
    (resolved : q.refs = []) (even : ∀ c ∈ cs, (f c).width = w) (empty : g [] = [])
    (each : ∀ c ∈ cs, (f c).NormalFor c.drives fun ρ => g (c.positions ρ)) :
    (Expr.mux q (cs.map f)).NormalFor (Expr.mux q cs).drives
      fun ρ => g ((Expr.mux q cs).positions ρ) where
  normal := .mux (List.forall_mem_map.mpr fun c hc => (each c hc).normal)
  tidy := .mux resolved (List.forall_mem_map.mpr fun c hc => (each c hc).tidy)
    (List.forall_mem_map.mpr even)
  drives s hs := by
    rw [Expr.drives, drivesOf_eq, List.flatMap_map] at hs
    obtain ⟨c, hc, driven⟩ := List.mem_flatMap.mp hs
    rw [Expr.drives, drivesOf_eq]
    exact List.mem_flatMap.mpr ⟨c, hc, (each c hc).drives driven⟩
  positions ρ := by
    obtain ⟨k, value⟩ := eval_ok ρ q resolved
    rw [positions_mux value, positions_mux value, List.length_map]
    rcases choice_cases cs k with rfl | ⟨c, hc, found⟩
    · exact empty.symm
    · have mapped : (cs.map f)[choiceIndex k cs.length]? = some (f c) := by
        rw [List.getElem?_map, found]
        rfl
      rw [positionsAt_eq found, positionsAt_eq mapped, (each c hc).positions]

/-! ### Slices pushed inward -/

theorem slice_signal_narrowed (s : Signal) (order : start ≤ stop) (inside : stop ≤ s.width) :
    Narrowed (.signal s) start stop (.slice (.signal s) start stop) where
  normal := .slice s start stop
  tidy := .slice (.signal s) order inside
  drives := List.Subset.refl _
  positions _ := rfl

theorem extract_signal_narrowed (s : Signal) (order : start ≤ stop) (inside : stop ≤ s.width) :
    Narrowed (.signal s) start stop ((Expr.signal s).extract start stop) := by
  by_cases whole : start = 0 ∧ stop = (Expr.signal s).width
  · rw [extract_whole whole]
    exact .whole (.signal s) (.signal s) whole
  · rw [extract, if_neg whole]
    exact slice_signal_narrowed s order inside

theorem stop_le_width {s : Signal} {base top : Nat} (tidy : (Expr.slice (.signal s) base top).Tidy)
    (inside : stop ≤ top - base) : base + stop ≤ s.width := by
  cases tidy with
  | slice _ order within => exact le_trans (by omega) within

/-- A window of a slice is a window of the signal. -/
theorem Narrowed.of_signal {s : Signal} {base top : Nat} (inside : stop ≤ top - base)
    (h : Narrowed (.signal s) (base + start) (base + stop) t) :
    Narrowed (.slice (.signal s) base top) start stop t where
  normal := h.normal
  tidy := h.tidy
  drives := h.drives
  positions ρ := (h.positions ρ).trans (window_window _ inside).symm

/-- Of parts that begin at bit `lo`, what a window covers. -/
theorem narrowParts_for (tidy : ∀ p ∈ ps, p.Tidy)
    (apart : ps.Pairwise fun p q => ∀ s ∈ p.drives, s ∉ q.drives)
    (each : ∀ p ∈ ps, ∀ {start stop : Nat}, start ≤ stop → stop ≤ p.width →
      Narrowed p start stop (p.narrow start stop))
    (order : start ≤ stop) (lo : Nat) :
    PartsFor (narrowParts ps lo start stop) (drivesOf ps)
      fun ρ => ((positionsOf ρ ps).drop (start - lo)).take (stop - lo - (start - lo)) := by
  induction ps generalizing lo with
  | nil => simpa [narrowParts, positionsOf] using PartsFor.nil _
  | cons p ps ih =>
    obtain ⟨head, tail⟩ := List.forall_mem_cons.mp tidy
    obtain ⟨separate, others⟩ := List.pairwise_cons.mp apart
    obtain ⟨first, later⟩ := List.forall_mem_cons.mp each
    have rest := ih tail others later (lo + p.width)
    have split (ρ : Valuation) := window_append (p.positions ρ) (positionsOf ρ ps)
      (head.length_positions ρ) lo start stop order
    simp only [narrowParts, positionsOf, split]
    by_cases meets : start < lo + p.width ∧ lo < stop
    · rw [if_pos meets]
      exact .cons (first (by omega) (by omega)) rest (not_mem_drivesOf separate)
    · -- The window does not touch this part, so that its share of the bits is empty.
      have none (ρ : Valuation) : ((p.positions ρ).drop (max start lo - lo)).take
          (min stop (lo + p.width) - lo - (max start lo - lo)) = [] := by
        rw [List.take_eq_nil_iff, List.drop_eq_nil_iff, head.length_positions]
        omega
      rw [if_neg meets]
      simp only [none, List.nil_append]
      exact ⟨rest.normal, rest.tidy, rest.apart,
        List.subset_append_of_subset_right _ rest.drives, rest.positions⟩

/-- Choices between normal targets are narrowed one by one. -/
theorem mux_narrowed {w : Nat} (resolved : q.refs = []) (tidy : ∀ c ∈ cs, c.Tidy)
    (even : ∀ c ∈ cs, c.width = w) (inside : stop ≤ (Expr.mux q cs).width)
    (each : ∀ c ∈ cs, stop ≤ c.width → Narrowed c start stop (c.narrow start stop)) :
    Narrowed (.mux q cs) start stop (.mux q (narrowAll cs start stop)) := by
  have narrowed (c : Expr) (hc : c ∈ cs) : stop ≤ c.width := width_mux even hc ▸ inside
  rw [narrowAll_eq]
  refine NormalFor.mux (g := fun ps => (ps.drop start).take (stop - start)) (w := stop - start)
    resolved (fun c hc => ?_) (by simp) fun c hc => each c hc (narrowed c hc)
  exact Narrowed.width (each c hc (narrowed c hc)) (tidy c hc) (narrowed c hc)

/-- Narrowing a normal target takes a window of its bits. -/
theorem narrow_narrowed (normal : e.Normal) (tidy : e.Tidy) (order : start ≤ stop)
    (inside : stop ≤ e.width) : Narrowed e start stop (e.narrow start stop) := by
  -- Parts and choices are narrowed to windows of their own, so the bounds vary.
  induction normal generalizing start stop with
  | signal s =>
    have same : (Expr.signal s).narrow start stop = (Expr.signal s).extract start stop := by
      rw [narrow]
      split
      next whole => rw [extract_whole whole]
      next => rfl
    rw [same]
    exact extract_signal_narrowed s order inside
  | slice s base top =>
    by_cases whole : start = 0 ∧ stop = (Expr.slice (.signal s) base top).width
    · rw [narrow_whole whole]
      exact .whole (.slice s base top) tidy whole
    · rw [narrow, if_neg whole]
      exact .of_signal inside
        (extract_signal_narrowed s (Nat.add_le_add_left order base) (stop_le_width tidy inside))
  | @concat ps normal ih =>
    by_cases whole : start = 0 ∧ stop = (Expr.concat ps).width
    · rw [narrow_whole whole]
      exact .whole (.concat normal) tidy whole
    · cases tidy with
      | concat parts apart =>
        -- What is left may be a single part, which then stands alone.
        rw [narrow, if_neg whole]
        exact (narrowParts_for parts apart (fun p hp => ih p hp (parts p hp)) order 0).join
  | @mux q cs normal ih =>
    by_cases whole : start = 0 ∧ stop = (Expr.mux q cs).width
    · rw [narrow_whole whole]
      exact .whole (.mux normal) tidy whole
    · cases tidy with
      | mux resolved choices even =>
        rw [narrow, if_neg whole]
        exact mux_narrowed resolved choices even inside fun c hc => ih c hc (choices c hc) order

theorem sliceNormal_narrowed (normal : e.Normal) (tidy : e.Tidy) (order : start ≤ stop)
    (inside : stop ≤ e.width) : Narrowed e start stop (e.sliceNormal start stop) := by
  cases normal with
  | signal s => exact extract_signal_narrowed s order inside
  | slice s base top =>
    change Narrowed _ start stop ((Expr.slice (.signal s) base top).extract start stop)
    by_cases whole : start = 0 ∧ stop = (Expr.slice (.signal s) base top).width
    · rw [extract_whole whole]
      exact .whole (.slice s base top) tidy whole
    · rw [extract, if_neg whole]
      exact .of_signal inside
        (slice_signal_narrowed s (Nat.add_le_add_left order base) (stop_le_width tidy inside))
  | concat normal => exact narrow_narrowed (.concat normal) tidy order inside
  | mux normal =>
    cases tidy with
    | mux resolved choices even =>
      exact mux_narrowed resolved choices even inside fun c hc =>
        narrow_narrowed (normal c hc) (choices c hc) order

theorem normalAll_for (each : ∀ p ∈ ps, p.normal.NormalFor p.drives p.positions)
    (apart : ps.Pairwise fun p q => ∀ s ∈ p.drives, s ∉ q.drives) :
    PartsFor (normalAll ps) (drivesOf ps) fun ρ => positionsOf ρ ps := by
  induction ps with
  | nil => exact .nil _
  | cons p ps ih =>
    obtain ⟨first, later⟩ := List.forall_mem_cons.mp each
    obtain ⟨separate, others⟩ := List.pairwise_cons.mp apart
    exact .cons first (ih later others) (not_mem_drivesOf separate)

/-- The normal form of a target stands for the same bits. -/
theorem normal_normalFor (tidy : t.Tidy) : t.normal.NormalFor t.drives t.positions := by
  induction tidy with
  | signal s => exact ⟨.signal s, .signal s, List.Subset.refl _, fun _ => rfl⟩
  | @slice a start stop inner order inside ih =>
    have width : a.normal.width = a.width := by
      rw [ih.width fun _ => 0, inner.length_positions]
    -- The slice cuts the normal form, which stands for the same bits and has the same width.
    have cut := sliceNormal_narrowed ih.normal ih.tidy order (width ▸ inside)
    refine ⟨cut.normal, cut.tidy, List.Subset.trans cut.drives ih.drives, fun ρ => ?_⟩
    rw [normal, cut.positions, ih.positions, positions]
  | concat _ apart ih => exact (normalAll_for ih apart).concat
  | @mux q cs w resolved choices even ih =>
    rw [normal, normalAll_eq]
    refine NormalFor.mux (g := id) (w := w) resolved (fun c hc => ?_) rfl ih
    rw [(ih c hc).width fun _ => 0, (choices c hc).length_positions, even c hc]

end Expr

namespace Frame

/-! ### Storing into the normal form -/

namespace Wrote

variable {f g h : Frame} {rs ss : List Signal} {ps : List Position} {bits : Nat}

theorem bitAt_eq (first : Wrote f g rs ps bits) (second : Wrote f h ss ps bits) (p : Position) :
    h.bitAt p = g.bitAt p := by
  by_cases member : p ∈ ps
  · obtain ⟨i, found⟩ := List.getElem?_of_mem member
    rw [← first.reads i p found, ← second.reads i p found]
  · rw [first.kept p member, second.kept p member]

/-- After a store a signal has a number of its shape if the store touches it or it had one
before. -/
theorem holds_latest (wrote : Wrote f g rs ps bits) {s : Signal}
    (shaped : s ∈ rs ∨ s.shape.Holds (f.latest s)) : s.shape.Holds (g.latest s) := by
  by_cases touched : s ∈ rs
  · exact wrote.ranged s touched
  · rw [wrote.others s touched]
    exact shaped.resolve_left touched

/-- Two ways to store the same bits agree on a signal unless just one of them touches it. -/
theorem latest_eq_iff (first : Wrote f g rs ps bits) (second : Wrote f h ss ps bits) (s : Signal) :
    h.latest s = g.latest s ↔ s.shape.Holds (f.latest s) ∨ (s ∈ rs ↔ s ∈ ss) := by
  have same (k : Nat) := bitAt_eq first second (s, k)
  constructor
  · intro agree
    -- If just one of them touches the signal, what the other one left was there before.
    by_cases left : s ∈ rs <;> by_cases right : s ∈ ss
    · exact .inr (iff_of_true left right)
    · exact .inl (second.others s right ▸ agree ▸ first.ranged s left)
    · exact .inl (first.others s left ▸ agree ▸ second.ranged s right)
    · exact .inr (iff_of_false left right)
  · rintro (range | both)
    · exact latest_eq_of_bits same (second.holds_latest (.inr range))
        (first.holds_latest (.inr range))
    · by_cases touched : s ∈ rs
      · exact latest_eq_of_bits same (second.ranged s (both.mp touched)) (first.ranged s touched)
      · rw [first.others s touched, second.others s (mt both.mpr touched)]

end Wrote

/-- The normal form of a target is normal and as wide as the target. Storing a number into either of
them in a clocked frame leaves every signal with the same bits, and with the same value exactly if
the signal had a number of its shape, or both stores rewrite it, or neither does. -/
theorem write_normal_iff {t : Expr} (tidy : t.Tidy) :
    t.normal.Normal ∧ t.normal.width = t.width ∧
    ∀ (v : Int) {f : Frame}, f.clocked = true →
      ∃ g h, (write t v).run.run f = (.ok (), g) ∧ (write t.normal v).run.run f = (.ok (), h) ∧
        ∀ s, s.shape.wrap (h.latest s) = s.shape.wrap (g.latest s) ∧
          (h.latest s = g.latest s ↔ s.shape.Holds (f.latest s) ∨
            (s ∈ t.reached f.state.value ↔ s ∈ t.normal.reached f.state.value)) := by
  have form := Expr.normal_normalFor tidy
  have width : t.normal.width = t.width := by
    rw [form.width fun _ => 0, tidy.length_positions]
  refine ⟨form.normal, width, fun v f clocked => ?_⟩
  obtain ⟨g, run, first⟩ := write_wrote tidy v clocked
  obtain ⟨h, run', second⟩ := write_wrote form.tidy v clocked
  rw [form.positions, width] at second
  refine ⟨g, h, run, run', fun s => ⟨?_, first.latest_eq_iff second s⟩⟩
  exact wrap_latest_eq fun k => first.bitAt_eq second (s, k)

open Nested in
/-- The slice is pushed into both concatenations, to different depths. -/
theorem nested_normal_agrees :
    target.Tidy ∧ frame.clocked = true ∧
    target.normal = .mux pick [.concat [.slice low 1 2, .slice level 1 3],
      .concat [.slice word 1 3, .slice delta 0 1]] ∧
    target.normal.Normal ∧ target.normal.width = 3 ∧
    ∃ g h, (write target (-2)).run.run frame = (.ok (), g) ∧
      (write target.normal (-2)).run.run frame = (.ok (), h) ∧
      ∀ s ∈ target.mentions, h.latest s = g.latest s := by
  obtain ⟨normal, width, stores⟩ := write_normal_iff tidy
  obtain ⟨g, h, run, run', same⟩ := stores (-2) (f := frame) rfl
  have range : ∀ s ∈ target.mentions, s.shape.Holds (frame.latest s) := by decide +kernel
  exact ⟨tidy, rfl, by decide +kernel, normal, width, g, h, run, run',
    fun s hs => (same s).2.mpr (.inl (range s hs))⟩

namespace Unshaped

def low : Signal := ⟨⟨0⟩, "low", .unsigned 4, 0, false⟩

def high : Signal := ⟨⟨1⟩, "high", .unsigned 8, 0, false⟩

def target : Expr := .slice (.concat [low, high]) 0 4

/-- A frame in which a signal has a number that is too large for it. -/
def frame : Frame := { state := .ofList [(high, 300)], writes := .ofList [], clocked := true }

theorem tidy : target.Tidy := by
  refine .slice (.concat (fun p hp => ?_) (by decide)) (by decide) (by decide)
  rcases List.mem_pair.mp hp with rfl | rfl <;> exact .signal _

end Unshaped

open Unshaped in
/-- Storing into the lower of two signals side by side cuts the upper one to its shape; storing into
the lower one alone does not. -/
theorem unshaped_signal_differs :
    target.isTarget = true ∧ target.Tidy ∧ frame.clocked = true ∧ target.normal = .signal low ∧
    ∃ g h, (write target 5).run.run frame = (.ok (), g) ∧
      (write target.normal 5).run.run frame = (.ok (), h) ∧
      g.latest high = 44 ∧ h.latest high = 300 :=
  ⟨by decide, tidy, rfl, by decide, _, _, rfl, rfl, by decide +kernel, by decide +kernel⟩

end Frame

end Gateware
