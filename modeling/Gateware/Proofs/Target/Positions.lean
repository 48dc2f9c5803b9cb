import Gateware.Proofs.Target.Routing

/-!
# The bits of a target

A target stands for a list of bits of signals, the lowest one first. Which bits these are depends on
the selectors of its choices. Reading the target back collects these bits, and storing a number
there sets them and leaves all others alone, however slices, concatenations and choices are nested.

## Main results

`write_put_get`: what has been stored into a target of a clocked frame is read back from it, and
every bit that the target does not stand for is as it was.

## Proof strategy

`Expr.positions` lists the bits of a target, and in a tidy target a bit stands at the place that
`Expr.bitFor` leads it to (`Tidy.bitFor_eq_some_iff`, by induction on the target). What is stored
there (`Frame.Wrote`) and read back (`Frame.Reads`) is then a matter of where single bits go.
-/
namespace Gateware

namespace Expr

/-! ### Targets and their bits -/

/-- A target made of signals. Slices lie inside what they cut, no signal is driven by two parts of
one concatenation, selectors hold no references, and all choices of one selector are equally
wide. -/
inductive Tidy : Expr → Prop
  | signal (s : Signal) : Tidy (.signal s)
  | slice {a : Expr} {start stop : Nat} (inner : Tidy a) (order : start ≤ stop)
    (inside : stop ≤ a.width) : Tidy (.slice a start stop)
  | concat {ps : List Expr} (parts : ∀ p ∈ ps, Tidy p)
    (apart : ps.Pairwise fun p q => ∀ s ∈ p.drives, s ∉ q.drives) : Tidy (.concat ps)
  | mux {q : Expr} {cs : List Expr} {w : Nat} (resolved : q.refs = []) (choices : ∀ c ∈ cs, Tidy c)
    (even : ∀ c ∈ cs, c.width = w) : Tidy (.mux q cs)

mutual
/-- The bits that a target stands for, the lowest one first. -/
def positions (ρ : Valuation) : Expr → List Position
  | .signal s => (List.range s.width).map (s, ·)
  | .slice a start stop => ((a.positions ρ).drop start).take (stop - start)
  | .concat ps => positionsOf ρ ps
  | .mux q cs =>
    (q.eval ρ).toOption.elim [] fun k => positionsAt ρ cs (choiceIndex k cs.length)
  | _ => []

def positionsOf (ρ : Valuation) : List Expr → List Position
  | [] => []
  | p :: ps => p.positions ρ ++ positionsOf ρ ps

def positionsAt (ρ : Valuation) : List Expr → Nat → List Position
  | [], _ => []
  | c :: _, 0 => c.positions ρ
  | _ :: cs, i + 1 => positionsAt ρ cs i
end

variable {ρ : Valuation} {q c : Expr} {cs : List Expr} {k : Int} {i w : Nat}

theorem positionsAt_eq (found : cs[i]? = some c) : positionsAt ρ cs i = c.positions ρ :=
  choice_eq (positionsAt ρ) (positions ρ) (fun _ _ => rfl) (fun _ _ _ => rfl) found

theorem positions_mux (value : q.eval ρ = .ok k) :
    (Expr.mux q cs).positions ρ = positionsAt ρ cs (choiceIndex k cs.length) := by
  rw [positions, value]
  rfl

theorem width_mux (even : ∀ c ∈ cs, c.width = w) (hc : c ∈ cs) :
    (Expr.mux q cs).width = c.width := by
  have widest (es : List Expr) (acc : Nat) (same : ∀ e ∈ es, e.width = w) (some : es ≠ []) :
      (shapes es).foldl (fun w s => max w s.width) acc = max acc w := by
    induction es generalizing acc with
    | nil => exact absurd rfl some
    | cons e es ih =>
      obtain ⟨first, others⟩ := List.forall_mem_cons.mp same
      change (shapes es).foldl (fun w s => max w s.width) (max acc e.width) = max acc w
      rw [first]
      by_cases last : es = []
      · subst last
        rfl
      · rw [ih _ others last]
        omega
  have all := widest cs 0 even (List.ne_nil_of_mem hc)
  rw [Nat.zero_max] at all
  exact all.trans (even c hc).symm

theorem getElem?_positions_signal {s : Signal} {p : Position} :
    ((Expr.signal s).positions ρ)[i]? = some p ↔ i < s.width ∧ p = (s, i) := by
  rw [positions, List.getElem?_map]
  by_cases inside : i < s.width
  · rw [List.getElem?_range inside]
    simp [inside, eq_comm]
  · rw [List.getElem?_eq_none (by simpa using inside)]
    simp [inside]

theorem positionsOf_eq (ps : List Expr) : positionsOf ρ ps = ps.flatMap (positions ρ) := by
  induction ps with
  | nil => rfl
  | cons p ps ih => rw [positionsOf, ih, List.flatMap_cons]

namespace Tidy

variable {t : Expr}

/-- A choice stands for one of the targets it chooses from, if there is any. -/
theorem mux_cases (resolved : q.refs = []) (even : ∀ c ∈ cs, c.width = w) (ρ : Valuation) :
    ∃ k, q.eval ρ = .ok k ∧
      (cs = [] ∨ ∃ c ∈ cs, cs[choiceIndex k cs.length]? = some c ∧
        (Expr.mux q cs).positions ρ = c.positions ρ ∧ (Expr.mux q cs).reached ρ = c.reached ρ ∧
        (Expr.mux q cs).width = c.width) := by
  obtain ⟨k, value⟩ := eval_ok ρ q resolved
  refine ⟨k, value, (choice_cases cs k).imp_right ?_⟩
  rintro ⟨c, hc, found⟩
  rw [positions_mux value, reached_mux value]
  exact ⟨c, hc, found, positionsAt_eq found, reachedAt_eq found, width_mux even hc⟩

theorem fst_mem_drives (tidy : t.Tidy) (ρ : Valuation) : ∀ p ∈ t.positions ρ, p.1 ∈ t.drives := by
  induction tidy with
  | signal s =>
    intro p hp
    obtain ⟨k, -, rfl⟩ := List.mem_map.mp hp
    exact .head _
  | slice _ _ _ ih => exact fun p hp => ih p (List.mem_of_mem_drop (List.mem_of_mem_take hp))
  | concat _ _ ih =>
    intro p hp
    rw [positions, positionsOf_eq] at hp
    obtain ⟨part, member, inside⟩ := List.mem_flatMap.mp hp
    rw [drives, drivesOf_eq]
    exact List.mem_flatMap.mpr ⟨part, member, ih part member p inside⟩
  | mux resolved _ even ih =>
    intro p hp
    obtain ⟨k, value, rfl | ⟨c, hc, -, same, -⟩⟩ := mux_cases resolved even ρ
    · rw [positions_mux value] at hp
      exact absurd hp List.not_mem_nil
    · rw [drives, drivesOf_eq]
      exact List.mem_flatMap.mpr ⟨c, hc, ih c hc p (same ▸ hp)⟩

theorem length_positionsOf {ps : List Expr}
    (each : ∀ p ∈ ps, (p.positions ρ).length = p.width) :
    (positionsOf ρ ps).length = (Expr.concat ps).width := by
  induction ps with
  | nil => rfl
  | cons p ps ih =>
    obtain ⟨first, others⟩ := List.forall_mem_cons.mp each
    rw [positionsOf, List.length_append, first, ih others, width_concat_cons]

/-- A target stands for as many bits as it is wide. -/
theorem length_positions (tidy : t.Tidy) (ρ : Valuation) : (t.positions ρ).length = t.width := by
  induction tidy with
  | signal s =>
    rw [positions, List.length_map, List.length_range]
    rfl
  | slice _ order inside ih =>
    rw [positions, List.length_take, List.length_drop, ih]
    change _ = _ - _
    omega
  | concat _ _ ih => exact length_positionsOf ih
  | mux resolved _ even ih =>
    obtain ⟨k, value, rfl | ⟨c, hc, -, same, -, width⟩⟩ := mux_cases resolved even ρ
    · rw [positions_mux value]
      rfl
    · rw [same, width, ih c hc]

theorem storable (tidy : t.Tidy) : t.Storable := by
  induction tidy with
  | signal s => exact .signal s
  | slice _ _ _ ih => exact .slice ih _ _
  | concat _ _ ih => exact .concat ih
  | mux resolved _ _ ih => exact .mux resolved ih

theorem bitForOf_eq_some_iff {ps : List Expr} {p : Position} (parts : ∀ q ∈ ps, q.Tidy)
    (apart : ps.Pairwise fun q r => ∀ s ∈ q.drives, s ∉ r.drives)
    (each : ∀ q ∈ ps, ∀ i, q.bitFor ρ p = some i ↔ (q.positions ρ)[i]? = some p) (i : Nat) :
    bitForOf ρ ps p = some i ↔ (positionsOf ρ ps)[i]? = some p := by
  induction ps generalizing i with
  | nil => simp [bitForOf, positionsOf]
  | cons q qs ih =>
    obtain ⟨head, tail⟩ := List.forall_mem_cons.mp parts
    obtain ⟨separate, rest⟩ := List.pairwise_cons.mp apart
    obtain ⟨first, others⟩ := List.forall_mem_cons.mp each
    have later := ih tail rest others
    have length := head.length_positions ρ
    rw [bitForOf, positionsOf, Option.or_eq_some_iff, Option.map_eq_some_iff,
      Option.map_eq_none_iff]
    constructor
    · rintro (⟨j, found, rfl⟩ | ⟨-, found⟩)
      · rw [List.getElem?_append_right (by omega), length, Nat.add_sub_cancel_left]
        exact (later j).mp found
      · obtain ⟨bound, -⟩ := List.getElem?_eq_some_iff.mp ((first i).mp found)
        rw [List.getElem?_append_left bound]
        exact (first i).mp found
    · intro found
      rcases Nat.lt_or_ge i q.width with low | high
      · rw [List.getElem?_append_left (by omega)] at found
        refine .inr ⟨Option.eq_none_iff_forall_ne_some.mpr fun j led => ?_, (first i).mpr found⟩
        -- A common bit would be one of a signal that two parts drive.
        have shared := List.mem_of_getElem? ((later j).mp led)
        rw [positionsOf_eq, List.mem_flatMap] at shared
        obtain ⟨r, hr, inside⟩ := shared
        exact separate r hr p.1 (head.fst_mem_drives ρ p (List.mem_of_getElem? found))
          ((tail r hr).fst_mem_drives ρ p inside)
      · rw [List.getElem?_append_right (by omega), length] at found
        exact .inl ⟨i - q.width, (later _).mpr found, Nat.add_sub_cancel' high⟩

/-- Every bit of a tidy target stands at one place. -/
theorem bitFor_eq_some_iff (tidy : t.Tidy) (ρ : Valuation) {p : Position} {i : Nat} :
    t.bitFor ρ p = some i ↔ (t.positions ρ)[i]? = some p := by
  induction tidy generalizing i with
  | signal s => rw [bitFor_signal, getElem?_positions_signal, and_comm]
  | slice _ _ _ ih =>
    rw [bitFor_slice, ih, positions, List.getElem?_take, List.getElem?_drop]
    split <;> simp [*]
  | concat parts apart ih => exact bitForOf_eq_some_iff parts apart (fun q hq i => ih q hq) i
  | mux resolved _ even ih =>
    obtain ⟨k, value, rfl | ⟨c, hc, counted, same, -, -⟩⟩ := mux_cases resolved even ρ
    · rw [bitFor, positions, value]
      simp [bitForAt, positionsAt, Except.toOption]
    · rw [bitFor_mux value counted, same]
      exact ih c hc

end Tidy

end Expr

namespace Frame

/-! ### Reading -/

/-- The pattern has the bits that the frame has at these positions. -/
def Reads (f : Frame) (ps : List Position) (bits : Nat) : Prop :=
  ∀ i p, ps[i]? = some p → bits.testBit i = f.bitAt p

namespace Reads

variable {f : Frame} {ps qs : List Position} {a b w : Nat}

/-- Positions determine the pattern. -/
theorem unique (first : f.Reads ps a) (second : f.Reads ps b) (length : ps.length = w)
    (lt : a < 2 ^ w) (lt' : b < 2 ^ w) : a = b := by
  refine Nat.eq_of_testBit_eq fun i => ?_
  rcases Nat.lt_or_ge i w with below | above
  · have found := List.getElem?_eq_getElem (l := ps) (i := i) (by omega)
    rw [first i _ found, second i _ found]
  · rw [testBit_eq_false_of_lt lt above, testBit_eq_false_of_lt lt' above]

end Reads

/-- Reading a target back collects its bits. -/
theorem holds_reads {t : Expr} (tidy : t.Tidy) (f : Frame) :
    ∃ o, f.holds t = .ok o ∧ f.Reads (t.positions f.seen) (toBits o t.width) := by
  obtain ⟨o, found, collects⟩ := holds_collects tidy.storable f
  exact ⟨o, found, fun i p hp => collects p i ((tidy.bitFor_eq_some_iff f.seen).mpr hp)⟩

/-! ### Storing -/

/-- What storing a pattern does to a frame. The bits at the positions are those of the pattern and
all others are as they were; the given signals have numbers of their shapes and all others are not
touched. -/
structure Wrote (f g : Frame) (signals : List Signal) (ps : List Position) (bits : Nat) : Prop where
  state : g.state = f.state
  clocked : g.clocked = f.clocked
  reads : g.Reads ps bits
  kept : ∀ p ∉ ps, g.bitAt p = f.bitAt p
  ranged : ∀ s ∈ signals, s.shape.Holds (g.latest s)
  others : ∀ s ∉ signals, g.latest s = f.latest s

/-- Storing into a target sets its bits, and nothing else. -/
theorem write_wrote {t : Expr} (tidy : t.Tidy) (v : Int) {f : Frame} (clocked : f.clocked = true) :
    ∃ g, (write t v).run.run f = (.ok (), g) ∧
      Wrote f g (t.reached f.state.value) (t.positions f.state.value) (toBits v t.width) := by
  obtain ⟨g, run, routed⟩ := write_routes tidy.storable v clocked
  have place {p : Position} {i : Nat} := tidy.bitFor_eq_some_iff f.state.value (p := p) (i := i)
  refine ⟨g, run, routed.state, routed.clocked, fun i p hp => ?_, fun p hp => ?_, routed.ranged,
    routed.others⟩
  · exact (routed.routed p i (place.mpr hp)).symm
  · refine routed.kept p (Option.eq_none_iff_forall_ne_some.mpr fun i led => ?_)
    exact hp (List.mem_of_getElem? (place.mp led))

/-- A number is stored into a target of a clocked frame. This ends well, reading the target back
gives the low bits of the number, every bit that the target does not stand for is as it was, and so
is the value of every signal that had a number of its shape and of which the target stands for no
bit. -/
theorem write_put_get {t : Expr} (tidy : t.Tidy) (v : Int) {f : Frame}
    (clocked : f.clocked = true) :
    ∃ g, (write t v).run.run f = (.ok (), g) ∧
      (∃ o, g.holds t = .ok o ∧ toBits o t.width = toBits v t.width) ∧
      (∀ p ∉ t.positions f.state.value, g.bitAt p = f.bitAt p) ∧
      ∀ s, s.shape.Holds (f.latest s) → (∀ k, (s, k) ∉ t.positions f.state.value) →
        g.latest s = f.latest s := by
  obtain ⟨g, run, wrote⟩ := write_wrote tidy v clocked
  refine ⟨g, run, ?_, wrote.kept, fun s range apart => ?_⟩
  · obtain ⟨o, found, reads⟩ := holds_reads tidy g
    rw [seen_clocked (wrote.clocked.trans clocked), wrote.state] at reads
    exact ⟨o, found, reads.unique wrote.reads (tidy.length_positions _) (toBits_lt ..)
      (toBits_lt ..)⟩
  · by_cases set : s ∈ t.reached f.state.value
    · exact latest_eq_of_bits (fun k => wrote.kept _ (apart k)) (wrote.ranged s set) range
    · exact wrote.others s set

namespace Nested

def pick : Signal := ⟨⟨0⟩, "pick", .signedOf 2, 0, false⟩

def low : Signal := ⟨⟨1⟩, "low", .unsigned 2, 1, false⟩

def level : Signal := ⟨⟨2⟩, "level", .signedOf 4, -3, false⟩

def word : Signal := ⟨⟨3⟩, "word", .unsigned 3, 0, false⟩

def delta : Signal := ⟨⟨4⟩, "delta", .signedOf 3, 0, false⟩

/-- Three bits out of the middle of one of two concatenations of five bits. -/
def target : Expr :=
  .slice (.mux pick [.concat [low, .slice level 1 4], .concat [word, .slice delta 0 2]]) 1 4

/-- A selector that is out of range, and a write that is pending. -/
def frame : Frame :=
  { state := .ofList [(pick, -1), (word, 5), (delta, -4)]
    writes := .ofList [(word, 2)]
    clocked := true }

theorem tidy : target.Tidy := by
  refine .slice (.mux (w := 5) rfl ?_ (by decide)) (by decide) (by decide)
  rintro c hc
  rcases List.mem_pair.mp hc with rfl | rfl
  · refine .concat (fun p hp => ?_) (by decide)
    rcases List.mem_pair.mp hp with rfl | rfl
    · exact .signal _
    · exact .slice (.signal _) (by decide) (by decide)
  · refine .concat (fun p hp => ?_) (by decide)
    rcases List.mem_pair.mp hp with rfl | rfl
    · exact .signal _
    · exact .slice (.signal _) (by decide) (by decide)

end Nested

open Nested in
/-- The upper bits of the word and the lowest bit of the other signal are set. -/
theorem nested_put_get :
    target.Tidy ∧ (∀ s ∈ target.mentions, s.shape.Holds (frame.latest s)) ∧
    target.positions frame.state.value = [(word, 1), (word, 2), (delta, 0)] ∧
    ∃ g, (write target (-2)).run.run frame = (.ok (), g) ∧
      (∃ o, g.holds target = .ok o ∧ toBits o 3 = 6) ∧ g.bitAt (word, 0) = frame.bitAt (word, 0) ∧
      g.latest level = -3 := by
  have positions : target.positions frame.state.value = [(word, 1), (word, 2), (delta, 0)] := by
    decide +kernel
  obtain ⟨g, run, ⟨o, found, put⟩, kept, others⟩ := write_put_get tidy (-2) (f := frame) rfl
  rw [positions] at kept others
  refine ⟨tidy, by decide +kernel, positions, g, run, ⟨o, found, put⟩, kept _ (by decide), ?_⟩
  exact (others level (by decide +kernel) fun k => by simp [level, word, delta]).trans
    (by decide +kernel)

end Frame

end Gateware
