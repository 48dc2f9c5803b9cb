import Gateware.Proofs.Folding.Invariants
import Gateware.Proofs.Pass
import Gateware.Proofs.Slicing

/-!
# Folding agrees with running

Statements run on expressions give each signal the expression whose value a run on numbers leaves in
the signal. The invariant is `Symbolic.Agrees`: after the same statements, what an environment holds
for a signal evaluates, outside of the run, to what the frame has for it. Widths are part of the
invariant, because choices between expressions of different widths would change their values.
-/
namespace Gateware

namespace Expr

/-! ### Targets -/

mutual
/-- Whether the expression is a target made of signals whose slices lie inside what they cut and
whose choices are equally wide and picked by an unsigned selector. -/
def isRegular : Expr → Bool
  | .signal _ => true
  | .slice a start stop => decide (start ≤ stop ∧ stop ≤ a.width) && a.isRegular
  | .concat ps => areRegular ps
  | .mux s cs =>
    !s.shape.signed && cs.all (fun c => c.width = (Expr.mux s cs).width) && areRegular cs
  | _ => false

def areRegular : List Expr → Bool
  | [] => true
  | p :: ps => p.isRegular && areRegular ps
end

mutual
/-- The signals that take what is assigned to the target as it is. -/
def direct : Expr → List Signal
  | .signal s => [s]
  | .mux _ cs => directOf cs
  | _ => []

def directOf : List Expr → List Signal
  | [] => []
  | c :: cs => c.direct ++ directOf cs
end

mutual
/-- The signals that a slice or a concatenation in the target takes bits for. -/
def nested : Expr → List Signal
  | .slice a _ _ => a.drives
  | .concat ps => drivesOf ps
  | .mux _ cs => nestedOf cs
  | _ => []

def nestedOf : List Expr → List Signal
  | [] => []
  | c :: cs => c.nested ++ nestedOf cs
end

theorem areRegular_iff {ps : List Expr} : areRegular ps = true ↔ ∀ p ∈ ps, p.isRegular = true := by
  induction ps with
  | nil => simp [areRegular]
  | cons p ps ih => simp [areRegular, ih]

theorem directOf_eq (cs : List Expr) : directOf cs = cs.flatMap direct := by
  induction cs with
  | nil => rfl
  | cons c cs ih => rw [directOf, ih, List.flatMap_cons]

theorem nestedOf_eq (cs : List Expr) : nestedOf cs = cs.flatMap nested := by
  induction cs with
  | nil => rfl
  | cons c cs ih => rw [nestedOf, ih, List.flatMap_cons]

theorem direct_subset (t : Expr) : t.direct ⊆ t.drives := by
  induction t with
  | signal => exact fun _ h => h
  | mux _ cs _ ih =>
    rw [direct, drives, directOf_eq, drivesOf_eq]
    exact flatMap_subset_flatMap ih
  | _ => exact List.nil_subset _

theorem nested_subset (t : Expr) : t.nested ⊆ t.drives := by
  induction t with
  | slice | concat => exact fun _ h => h
  | mux _ cs _ ih =>
    rw [nested, drives, nestedOf_eq, drivesOf_eq]
    exact flatMap_subset_flatMap ih
  | _ => exact List.nil_subset _

/-- What takes an expression as it is has the width of the target. -/
theorem width_of_direct (t : Expr) (regular : t.isRegular = true) :
    ∀ s ∈ t.direct, s.width = t.width := by
  induction t with
  | signal s =>
    intro x hx
    rw [List.mem_singleton.mp hx]
    rfl
  | mux s cs _ ih =>
    simp only [isRegular, Bool.and_eq_true, List.all_eq_true, decide_eq_true_eq,
      areRegular_iff] at regular
    rw [direct, directOf_eq, List.forall_mem_flatMap]
    exact fun c hc x hx => (ih c hc (regular.2 c hc) x hx).trans (regular.1.2 c hc)
  | _ => exact fun x hx => absurd hx List.not_mem_nil

/-! ### Choices and comparisons -/

theorem eval_mux_ok {ρ : Valuation} {q : Expr} {cs : List Expr} {k x : Int}
    (selector : q.eval ρ = .ok k)
    (chosen : evalChoice ρ cs (choiceIndex k cs.length) = .ok x) :
    (Expr.mux q cs).eval ρ = .ok ((Expr.mux q cs).shape.wrap x) := by
  rw [eval, selector]
  change (evalChoice ρ cs (choiceIndex k cs.length) >>= fun x => pure _) = _
  rw [chosen]
  rfl

theorem eval_compare {ρ : Valuation} {op : BinaryOp} {a b : Expr} {v w : Int} {q : Prop}
    [Decidable q] (ha : a.eval ρ = .ok v) (hb : b.eval ρ = .ok w)
    (shape : (Expr.binary op a b).shape = .unsigned 1)
    (result : op.apply v w a.width 1 = (decide q).toNat) :
    (Expr.binary op a b).eval ρ = .ok (decide q).toNat := by
  rw [eval, ha, hb]
  change Except.ok ((Expr.binary op a b).shape.wrap
    (op.apply v w a.width (Expr.binary op a b).shape.width)) = _
  rw [shape]
  change Except.ok ((Shape.unsigned 1).wrap (op.apply v w a.width 1)) = _
  rw [result, Shape.wrap_unsigned_of_lt (by cases decide q <;> decide)]

/-- What has the width already is not extended. -/
theorem unfit_of_width {e : Expr} {w : Nat} (width : e.width = w) : e.unfit w = false := by
  rw [unfit, width]
  cases w <;> simp

end Expr

namespace Symbolic

/-! ### What environments hold -/

/-- An expression that may stand for a signal whose value is `v`. Loose signals hold unsigned
expressions of any width; all others hold expressions of their own width. -/
structure Carries (loose : Signal → Prop) (ρ : Valuation) (e : Expr) (s : Signal) (v : Int) :
    Prop where
  width : ¬ loose s → e.width = s.width
  unsigned : loose s → e.shape.signed = false
  value : ∃ x, e.eval ρ = .ok x ∧ s.shape.wrap x = v ∧ (loose s → e.shape.wrap x = x)

/-- Running on expressions has come as far as running on numbers. `A` are the signals that are
assigned, `ρ` the values of the others. -/
structure Agrees (A loose : Signal → Prop) (ρ : Valuation) (env : Symbolic) (f : Frame) : Prop where
  blocking : f.clocked = false
  outside : ∀ s, ¬ A s → f.latest s = ρ s
  held : ∀ s, A s → Carries loose ρ (env.held s) s (f.latest s)

variable {A loose : Signal → Prop} {ρ : Valuation} {env : Symbolic} {f : Frame} {s : Signal}

theorem eval_select {cond yes no : Expr} {c x : Int} (value : cond.eval ρ = .ok c)
    (chosen : (if c = 0 then no else yes).eval ρ = .ok x) :
    (Expr.select cond yes no).eval ρ = .ok ((Expr.select cond yes no).shape.wrap x) := by
  have index : choiceIndex c 2 = if c = 0 then 0 else 1 := by
    unfold choiceIndex
    split <;> split <;> omega
  refine Expr.eval_mux_ok value ?_
  change Expr.evalChoice ρ [no, yes] (choiceIndex c 2) = _
  rw [index]
  split at chosen
  next zero => rwa [if_pos zero, Expr.evalChoice]
  next other => rwa [if_neg other, Expr.evalChoice, Expr.evalChoice]

theorem width_select (cond yes no : Expr) :
    (Expr.select cond yes no).shape.width = max no.width yes.width := by
  change max (max 0 no.width) yes.width = _
  rw [Nat.zero_max]

theorem signed_select (cond yes no : Expr) :
    (Expr.select cond yes no).shape.signed = (no.shape.signed || yes.shape.signed) := by
  change (no.shape.signed || (yes.shape.signed || false)) = _
  rw [Bool.or_false]

namespace Carries

/-- A choice stands for what the chosen expression stands for. -/
theorem select {cond yes no : Expr} {u v c : Int} (value : cond.eval ρ = .ok c)
    (first : Carries loose ρ yes s v) (second : Carries loose ρ no s u) :
    Carries loose ρ (.select cond yes no) s (if c = 0 then u else v) := by
  have chosen : Carries loose ρ (if c = 0 then no else yes) s (if c = 0 then u else v) := by
    split
    · exact second
    · exact first
  have fits : (if c = 0 then no else yes).width ≤ (Expr.select cond yes no).shape.width := by
    rw [width_select]
    split <;> omega
  obtain ⟨x, evaluates, same, wrapped⟩ := chosen.value
  have result := eval_select value evaluates
  have unsigned (h : loose s) : (Expr.select cond yes no).shape.signed = false := by
    rw [signed_select, first.unsigned h, second.unsigned h]
    rfl
  have width (h : ¬ loose s) : (Expr.select cond yes no).shape.width = s.width := by
    rw [width_select, first.width h, second.width h, Nat.max_self]
  refine ⟨width, unsigned, _, result, ?_, fun _ => Shape.wrap_wrap ..⟩
  rw [← same]
  by_cases h : loose s
  · -- An unsigned value is not changed by the width of the other choice.
    have kept : (Expr.select cond yes no).shape.wrap x = x :=
      Shape.wrap_eq_self_of_le (chosen.unsigned h) (unsigned h) fits (wrapped h)
    rw [kept]
  · refine s.shape.wrap_congr ?_
    have kept := (Expr.select cond yes no).shape.toBits_wrap x
    rwa [width h] at kept

end Carries

theorem Agrees.merge {cond : Expr} {c : Int} {yes no : Symbolic} {g h : Frame}
    (value : cond.eval ρ = .ok c) (first : Agrees A loose ρ yes g)
    (second : Agrees A loose ρ no h) :
    Agrees A loose ρ (merge cond yes no) (if c = 0 then h else g) := by
  have chosen : Agrees A loose ρ (if c = 0 then no else yes) (if c = 0 then h else g) := by
    split
    · exact second
    · exact first
  refine ⟨chosen.blocking, chosen.outside, fun s hs => ?_⟩
  rw [held_merge]
  split
  next same =>
    -- Both ways hold the same expression, so there is nothing to choose.
    have holds : (if c = 0 then no else yes).held s = yes.held s := by
      split
      · exact same.symm
      · rfl
    exact holds ▸ chosen.held s hs
  next =>
    have both := (first.held s hs).select value (second.held s hs)
    have latest : (if c = 0 then h else g).latest s = if c = 0 then h.latest s else g.latest s := by
      split <;> rfl
    rwa [latest]

theorem Agrees.insert {e : Expr} {v : Int} (agrees : Agrees A loose ρ env f) (driven : A s)
    (carries : Carries loose ρ e s (s.shape.wrap v)) :
    Agrees A loose ρ (env.insert s e) (f.stored s v) := by
  refine ⟨agrees.blocking, fun x hx => ?_, fun x hx => ?_⟩
  · have other : x ≠ s := fun same => hx (same ▸ driven)
    rw [Frame.latest_stored, if_neg other, agrees.outside x hx]
  · rw [held_insert, Frame.latest_stored]
    by_cases same : x = s
    · subst same
      simpa using carries
    · simpa [same] using agrees.held x hx

/-! ### Targets and what is stored into them -/

/-- What is read: no references, only signals outside of `A`, and these in range. -/
structure Inputs (A : Signal → Prop) (ρ : Valuation) (refs : List DomainRef) (reads : List Signal) :
    Prop where
  resolved : refs = []
  outside : ∀ s ∈ reads, ¬ A s
  inRange : ∀ s ∈ reads, s.shape.Holds (ρ s)

namespace Inputs

variable {rs qs : List DomainRef} {xs ys : List Signal}

theorem left (h : Inputs A ρ (rs ++ qs) (xs ++ ys)) : Inputs A ρ rs xs where
  resolved := (List.append_eq_nil_iff.mp h.resolved).1
  outside s hs := h.outside s (List.mem_append_left _ hs)
  inRange s hs := h.inRange s (List.mem_append_left _ hs)

theorem right (h : Inputs A ρ (rs ++ qs) (xs ++ ys)) : Inputs A ρ qs ys where
  resolved := (List.append_eq_nil_iff.mp h.resolved).2
  outside s hs := h.outside s (List.mem_append_right _ hs)
  inRange s hs := h.inRange s (List.mem_append_right _ hs)

theorem of_mem {α : Type} {refs : α → List DomainRef} {reads : α → List Signal} {as : List α}
    (h : Inputs A ρ (as.flatMap refs) (as.flatMap reads)) {a : α} (ha : a ∈ as) :
    Inputs A ρ (refs a) (reads a) where
  resolved := List.flatMap_eq_nil_iff.mp h.resolved a ha
  outside s hs := h.outside s (List.mem_flatMap.mpr ⟨a, ha, hs⟩)
  inRange s hs := h.inRange s (List.mem_flatMap.mpr ⟨a, ha, hs⟩)

/-- What is read has a value, which a run sees too. -/
theorem eval {e : Expr} (h : Inputs A ρ e.refs e.mentions) (agrees : Agrees A loose ρ env f) :
    ∃ v, e.eval ρ = .ok v ∧ e.eval f.seen = .ok v ∧ e.shape.wrap v = v := by
  obtain ⟨v, value⟩ := Expr.eval_ok ρ e h.resolved
  have seen : e.eval f.seen = e.eval ρ := e.eval_congr fun s hs => by
    rw [Frame.seen_blocking agrees.blocking, agrees.outside s (h.outside s hs)]
  exact ⟨v, value, seen.trans value, Expr.eval_wrapped h.inRange value⟩

/-- An unsigned selector counts. -/
theorem count {q : Expr} (h : Inputs A ρ q.refs q.mentions) (unsigned : q.shape.signed = false)
    (agrees : Agrees A loose ρ env f) :
    ∃ k : Nat, q.eval ρ = .ok (k : Int) ∧ q.eval f.seen = .ok (k : Int) := by
  obtain ⟨v, value, seen, wrapped⟩ := h.eval agrees
  rw [q.shape.wrap_eq_toBits v (by simp [unsigned])] at wrapped
  rw [← wrapped] at value seen
  exact ⟨_, value, seen⟩

end Inputs

/-- A regular target that drives signals of `A`, no loose ones through slices or concatenations. -/
structure Target (A loose : Signal → Prop) (ρ : Valuation) (t : Expr) : Prop where
  regular : t.isRegular = true
  inputs : Inputs A ρ t.refs t.selectors
  driven : ∀ s ∈ t.drives, A s
  nested : ∀ s ∈ t.nested, ¬ loose s

/-- A target without loose signals. -/
structure Tight (A loose : Signal → Prop) (ρ : Valuation) (t : Expr) : Prop
    extends Target A loose ρ t where
  tight : ∀ s ∈ t.drives, ¬ loose s

namespace Target

theorem slice {a : Expr} {start stop : Nat} (h : Target A loose ρ (.slice a start stop)) :
    (start ≤ stop ∧ stop ≤ a.width) ∧ Tight A loose ρ a := by
  have regular := h.regular
  simp only [Expr.isRegular, Bool.and_eq_true, decide_eq_true_eq] at regular
  exact ⟨regular.1, ⟨regular.2, h.inputs, h.driven,
    fun s hs => h.nested s (a.nested_subset hs)⟩, h.nested⟩

theorem parts {ps : List Expr} (h : Target A loose ρ (.concat ps)) :
    ∀ p ∈ ps, Tight A loose ρ p := by
  obtain ⟨regular, inputs, driven, nested⟩ := h
  simp only [Expr.isRegular, Expr.areRegular_iff] at regular
  simp only [Expr.refs, Expr.selectors, Expr.refsOf_eq, Expr.selectorsOf_eq] at inputs
  simp only [Expr.drives, Expr.nested, Expr.drivesOf_eq, List.mem_flatMap] at driven nested
  intro p hp
  exact ⟨⟨regular p hp, inputs.of_mem hp, fun s hs => driven s ⟨p, hp, hs⟩,
    fun s hs => nested s ⟨p, hp, p.nested_subset hs⟩⟩, fun s hs => nested s ⟨p, hp, hs⟩⟩

theorem choices {q : Expr} {cs : List Expr} (h : Target A loose ρ (.mux q cs)) :
    (q.shape.signed = false ∧ Inputs A ρ q.refs q.mentions) ∧
      ∀ c ∈ cs, c.width = (Expr.mux q cs).width ∧ Target A loose ρ c := by
  obtain ⟨regular, inputs, driven, nested⟩ := h
  simp only [Expr.isRegular, Bool.and_eq_true, Bool.not_eq_true', List.all_eq_true,
    decide_eq_true_eq, Expr.areRegular_iff] at regular
  have others := inputs.right
  simp only [Expr.refsOf_eq, Expr.selectorsOf_eq] at others
  simp only [Expr.drives, Expr.nested, Expr.drivesOf_eq, Expr.nestedOf_eq, List.mem_flatMap]
    at driven nested
  refine ⟨⟨regular.1.1, inputs.left⟩, fun c hc => ⟨regular.1.2 c hc, ?_⟩⟩
  exact ⟨regular.2 c hc, others.of_mem hc, fun s hs => driven s ⟨c, hc, hs⟩,
    fun s hs => nested s ⟨c, hc, hs⟩⟩

end Target

/-- In a tight choice all choices are tight. -/
theorem Tight.choices {q : Expr} {cs : List Expr} (h : Tight A loose ρ (.mux q cs)) :
    ∀ c ∈ cs, Tight A loose ρ c := by
  have tight := h.tight
  simp only [Expr.drives, Expr.drivesOf_eq, List.mem_flatMap] at tight
  exact fun c hc => ⟨(h.toTarget.choices.2 c hc).2, fun s hs => tight s ⟨c, hc, hs⟩⟩

/-- An expression that stands for the number `v` stored into a target. -/
structure Feeds (loose : Signal → Prop) (ρ : Valuation) (e t : Expr) (v : Int) : Prop where
  fit : e.unfit t.width = false
  fits : (e.fit t.width).HasBits ρ t.width (toBits v t.width)
  direct : ∀ s ∈ t.direct, Carries loose ρ e s (s.shape.wrap v)

/-- What has the width of a tight target can be stored there by its pattern alone. -/
theorem Tight.feeds {t e : Expr} {v : Int} (h : Tight A loose ρ t)
    (bits : e.HasBits ρ t.width (toBits v t.width)) : Feeds loose ρ e t v := by
  have unfitted : e.fit t.width = e := by rw [Expr.fit, if_pos bits.width]
  refine ⟨Expr.unfit_of_width bits.width, unfitted.symm ▸ bits, fun s hs => ?_⟩
  have width := t.width_of_direct h.regular s hs
  -- In a tight target the width decides, so the pattern fixes the wrapped value.
  have exact : ¬ loose s := h.tight s (t.direct_subset hs)
  obtain ⟨same, x, value, pattern⟩ := bits
  refine ⟨fun _ => same.trans width.symm, fun h => absurd h exact, x, value, ?_,
    fun h => absurd h exact⟩
  rw [← width] at pattern
  exact s.shape.wrap_congr pattern

theorem Feeds.choices {q e : Expr} {cs : List Expr} {v : Int}
    (h : Feeds loose ρ e (.mux q cs) v) (even : ∀ c ∈ cs, c.width = (Expr.mux q cs).width) :
    ∀ c ∈ cs, Feeds loose ρ e c v := by
  intro c hc
  refine ⟨even c hc ▸ h.fit, even c hc ▸ h.fits, fun s hs => h.direct s ?_⟩
  rw [Expr.direct, Expr.directOf_eq]
  exact List.mem_flatMap.mpr ⟨c, hc, hs⟩

/-! ### What targets hold -/

theorem heldByParts_eq (env : Symbolic) (ps : List Expr) :
    env.heldByParts ps = ps.map env.heldBy := by
  induction ps with
  | nil => rfl
  | cons p ps ih => rw [heldByParts, ih, List.map_cons]

theorem width_mux_congr {q r : Expr} {cs ds : List Expr}
    (h : cs.map Expr.width = ds.map Expr.width) :
    (Expr.mux q cs).width = (Expr.mux r ds).width := by
  change (Expr.shapes cs).foldl (fun w s => max w s.width) 0
    = (Expr.shapes ds).foldl (fun w s => max w s.width) 0
  have widths (es : List Expr) : (Expr.shapes es).foldl (fun w s => max w s.width) 0
      = (es.map Expr.width).foldl max 0 := by
    rw [Expr.shapes_eq_map, List.foldl_map, List.foldl_map]
    rfl
  rw [widths, widths, h]

mutual
/-- What an environment holds in a tight target has the pattern that a run finds there. -/
theorem heldBy_hasBits (t : Expr) (tight : Tight A loose ρ t) (agrees : Agrees A loose ρ env f) :
    ∃ o, f.holds t = .ok o ∧ (env.heldBy t).HasBits ρ t.width (toBits o t.width) := by
  match t with
  | .signal s =>
    have carries := agrees.held s (tight.driven s (.head _))
    obtain ⟨x, value, same, _⟩ := carries.value
    refine ⟨_, by rw [Frame.holds], carries.width (tight.tight s (.head _)), x, value, ?_⟩
    rw [← same]
    exact (s.shape.toBits_wrap x).symm
  | .slice a start stop =>
    obtain ⟨⟨order, inside⟩, inner⟩ := tight.slice
    obtain ⟨o, found, bits⟩ := heldBy_hasBits a inner agrees
    refine ⟨_, by rw [Frame.holds, found]; rfl, ?_⟩
    have kept : toBits ((Expr.slice a start stop).shape.wrap (field (toBits o a.width) start stop))
        (Expr.slice a start stop).width = field (toBits o a.width) start stop :=
      (Shape.toBits_wrap ..).trans (toBits_of_lt (field_lt ..))
    rw [kept, heldBy]
    exact bits.extract order inside
  | .concat ps =>
    obtain ⟨b, found, parts⟩ := heldByParts_have ps tight.parts agrees
    refine ⟨b, by rw [Frame.holds, found]; rfl, ?_⟩
    rw [heldBy, toBits_of_lt parts.lt]
    exact parts.concat
  | .mux q cs =>
    obtain ⟨⟨_, inputs⟩, even⟩ := tight.toTarget.choices
    obtain ⟨k, value, seen, _⟩ := inputs.eval agrees
    obtain ⟨widths, chosen⟩ := heldByChoice cs tight.choices (fun c hc => (even c hc).1) agrees
    obtain ⟨o, x, found, picked, bits⟩ := chosen (choiceIndex k cs.length)
    have length : (env.heldByParts cs).length = cs.length := by
      rw [heldByParts_eq, List.length_map]
    have width : (Expr.mux q (env.heldByParts cs)).shape.width = (Expr.mux q cs).width :=
      width_mux_congr widths
    refine ⟨o, by rw [Frame.holds, seen]; exact found, ?_⟩
    -- Held expressions have the widths of their targets, so the choice is as wide as each of them.
    have kept := (Expr.mux q (env.heldByParts cs)).shape.toBits_wrap x
    rw [width, bits] at kept
    rw [← length] at picked
    exact ⟨width, _, Expr.eval_mux_ok value picked, kept⟩
  | .literal _ | .ref _ | .unary .. | .binary .. | .replicate .. =>
    exact absurd tight.regular Bool.false_ne_true

theorem heldByParts_have (ps : List Expr) (tight : ∀ p ∈ ps, Tight A loose ρ p)
    (agrees : Agrees A loose ρ env f) :
    ∃ b, f.holdsParts ps = .ok b ∧
      Expr.PartsHave ρ (env.heldByParts ps) (Expr.concat ps).width b := by
  match ps with
  | [] => exact ⟨0, by rw [Frame.holdsParts], .nil⟩
  | p :: ps =>
    obtain ⟨first, others⟩ := List.forall_mem_cons.mp tight
    obtain ⟨o, found, bits⟩ := heldBy_hasBits p first agrees
    obtain ⟨b, rest, parts⟩ := heldByParts_have ps others agrees
    exact ⟨_, by rw [Frame.holdsParts, found, rest]; rfl, .cons bits parts⟩

theorem heldByChoice (cs : List Expr) {w : Nat} (tight : ∀ c ∈ cs, Tight A loose ρ c)
    (even : ∀ c ∈ cs, c.width = w) (agrees : Agrees A loose ρ env f) :
    (env.heldByParts cs).map Expr.width = cs.map Expr.width ∧
      ∀ i, ∃ o x, f.holdsChoice cs i = .ok o ∧
        Expr.evalChoice ρ (env.heldByParts cs) i = .ok x ∧ toBits x w = toBits o w := by
  match cs with
  | [] =>
    exact ⟨rfl, fun i =>
      ⟨0, 0, by rw [Frame.holdsChoice], by rw [heldByParts, Expr.evalChoice], rfl⟩⟩
  | c :: cs =>
    obtain ⟨first, others⟩ := List.forall_mem_cons.mp tight
    obtain ⟨width, later⟩ := List.forall_mem_cons.mp even
    obtain ⟨o, found, same, x, value, bits⟩ := heldBy_hasBits c first agrees
    obtain ⟨widths, rest⟩ := heldByChoice cs others later agrees
    refine ⟨by rw [heldByParts, List.map_cons, List.map_cons, same, widths], fun i => ?_⟩
    cases i with
    | zero =>
      refine ⟨o, x, by rw [Frame.holdsChoice, found], ?_, width ▸ bits⟩
      rw [heldByParts, Expr.evalChoice, value]
    | succ i => simpa only [heldByParts, Frame.holdsChoice, Expr.evalChoice] using rest i
end

/-! ### Storing -/

/-- The selector picks the choice that it counts to, or the last one. -/
theorem picks_eval {q : Expr} {k i last : Nat} (value : q.eval ρ = .ok (k : Int)) (h : i ≤ last) :
    (picks q i last).eval ρ = .ok (decide (min k last = i)).toNat := by
  rw [picks]
  by_cases final : i = last
  · rw [if_pos final]
    refine Expr.eval_compare value (Expr.eval_int ρ i) rfl ?_
    have same : (k : Int) ≥ i ↔ min k last = i := by omega
    change ((decide ((k : Int) ≥ i)).toNat : Int) = _
    rw [decide_eq_decide.mpr same]
  · rw [if_neg final]
    refine Expr.eval_compare value (Expr.eval_int ρ i) rfl ?_
    have same : (k : Int) = i ↔ min k last = i := by omega
    change ((decide ((k : Int) = i)).toNat : Int) = _
    rw [decide_eq_decide.mpr same]

mutual
/-- Storing an expression does not stop, and storing the number it stands for keeps in step. -/
theorem store_agrees (t : Expr) (target : Target A loose ρ t) {env : Symbolic} {f : Frame}
    (agrees : Agrees A loose ρ env f) {e : Expr} {v : Int} (feeds : Feeds loose ρ e t v) :
    env.overflows t e = false ∧
      ∃ g, (Frame.write t v).run.run f = (.ok (), g) ∧ Agrees A loose ρ (env.store t e) g := by
  match t with
  | .signal s =>
    refine ⟨rfl, f.stored s v, Frame.run_write_signal s v f, ?_⟩
    exact agrees.insert (target.driven s (.head _)) (feeds.direct s (.head _))
  | .slice a start stop =>
    obtain ⟨⟨order, inside⟩, tight⟩ := target.slice
    obtain ⟨o, found, held⟩ := heldBy_hasBits a tight agrees
    -- The spliced expression is as wide as what is cut, so nothing is lost further in.
    have spliced := held.splice feeds.fits order inside
    have lt := spliced.lt
    rw [← toBits_of_lt lt] at spliced
    obtain ⟨goes, g, run, after⟩ := store_agrees a tight.toTarget agrees (tight.feeds spliced)
    refine ⟨Bool.or_eq_false_iff.mpr ⟨feeds.fit, goes⟩, g, ?_, after⟩
    rw [Frame.run_write_slice]
    simp only [found]
    exact run
  | .concat ps =>
    -- Once fitted, the value is cut at the same places as the number.
    have bits := feeds.fits
    obtain ⟨goes, g, run, after⟩ := storeParts_agrees ps target.parts agrees bits 0 (by omega)
    refine ⟨Bool.or_eq_false_iff.mpr ⟨feeds.fit, goes⟩, g, ?_, after⟩
    rw [Frame.run_write_concat]
    exact run
  | .mux q cs =>
    obtain ⟨⟨unsigned, inputs⟩, choices⟩ := target.choices
    obtain ⟨k, value, seen⟩ := inputs.count unsigned agrees
    have fed := feeds.choices fun c hc => (choices c hc).1
    have index : choiceIndex (k : Int) cs.length = min k (cs.length - 1) := by
      simp [choiceIndex]
    rw [Frame.run_write_mux]
    simp only [seen, index]
    match cs with
    | [] => exact ⟨rfl, f, Frame.run_writeChoice_nil _ v f, agrees⟩
    | [c] =>
      rw [List.length_singleton, Nat.sub_self, Nat.min_zero, Frame.writeChoice, store, overflows]
      exact store_agrees c (choices c (.head _)).2 agrees (fed c (.head _))
    | c :: d :: cs =>
      obtain ⟨goes, -, chosen⟩ := storeChoices_agrees (c :: d :: cs) (fun c hc => (choices c hc).2)
        value agrees fed 0 ((c :: d :: cs).length - 1) (by simp)
      exact ⟨goes, chosen (Nat.zero_le _)⟩
  | .literal _ | .ref _ | .unary .. | .binary .. | .replicate .. =>
    exact absurd target.regular Bool.false_ne_true

theorem storeParts_agrees (ps : List Expr) (tight : ∀ p ∈ ps, Tight A loose ρ p) {env : Symbolic}
    {f : Frame} (agrees : Agrees A loose ρ env f) {e : Expr} {w b : Nat} (bits : e.HasBits ρ w b)
    (lo : Nat) (room : lo + (Expr.concat ps).width ≤ w) :
    env.overflowsParts ps e lo = false ∧
      ∃ g, (Frame.writeParts ps (b >>> lo)).run.run f = (.ok (), g) ∧
        Agrees A loose ρ (env.storeParts ps e lo) g := by
  match ps with
  | [] => exact ⟨rfl, f, Frame.run_writeParts_nil _ f, agrees⟩
  | p :: ps =>
    obtain ⟨first, others⟩ := List.forall_mem_cons.mp tight
    rw [Expr.width_concat_cons] at room
    have cut := bits.extract (Nat.le_add_right lo p.width) (by omega)
    rw [Nat.add_sub_cancel_left] at cut
    have part : b >>> lo &&& mask p.width = field b lo (lo + p.width) := by
      rw [field, Nat.add_sub_cancel_left]
    have lt := cut.lt
    rw [← toBits_of_lt lt] at cut
    obtain ⟨goes, g, run, after⟩ := store_agrees p first.toTarget agrees (first.feeds cut)
    obtain ⟨goes', h, rest, final⟩ :=
      storeParts_agrees ps others after bits (lo + p.width) (by omega)
    refine ⟨Bool.or_eq_false_iff.mpr ⟨goes, goes'⟩, h, ?_, final⟩
    rw [Frame.run_writeParts_cons, part]
    simp only [run]
    rw [← Nat.shiftRight_add]
    exact rest

/-- From choice `i` on: if the chosen one has been passed nothing changes any more, else it is still
to be stored into. -/
theorem storeChoices_agrees (cs : List Expr) (targets : ∀ c ∈ cs, Target A loose ρ c) {q : Expr}
    {k : Nat} (value : q.eval ρ = .ok (k : Int)) {env : Symbolic} {f : Frame}
    (agrees : Agrees A loose ρ env f) {e : Expr} {v : Int} (fed : ∀ c ∈ cs, Feeds loose ρ e c v)
    (i last : Nat) (count : i + cs.length = last + 1) :
    env.overflowsChoices q cs e i last = false ∧
      (min k last < i → Agrees A loose ρ (env.storeChoices q cs e i last) f) ∧
      (i ≤ min k last → ∃ g, (Frame.writeChoice cs (min k last - i) v).run.run f = (.ok (), g) ∧
        Agrees A loose ρ (env.storeChoices q cs e i last) g) := by
  match cs with
  | [] =>
    rw [storeChoices]
    exact ⟨rfl, fun _ => agrees, fun h => absurd h (by simp at count; omega)⟩
  | c :: cs =>
    obtain ⟨first, others⟩ := List.forall_mem_cons.mp targets
    obtain ⟨feed, feeds⟩ := List.forall_mem_cons.mp fed
    rw [List.length_cons] at count
    have rest : i + 1 + cs.length = last + 1 := by omega
    obtain ⟨goes, g, run, stored⟩ := store_agrees c first agrees feed
    -- The way where this choice is stored into is followed whether it is taken or not.
    have picked : (picks q i last).eval ρ = .ok (decide (min k last = i)).toNat :=
      picks_eval value (by omega)
    have merged := stored.merge picked agrees
    rw [storeChoices]
    by_cases here : min k last = i
    · simp only [here, decide_true, Bool.toNat_true, Nat.cast_one, one_ne_zero, if_false] at merged
      obtain ⟨goes', final, -⟩ := storeChoices_agrees cs others value merged feeds (i + 1) last rest
      refine ⟨Bool.or_eq_false_iff.mpr ⟨goes, goes'⟩, fun h => absurd h (by omega), fun _ =>
        ⟨g, ?_, final (by omega)⟩⟩
      rw [here, Nat.sub_self, Frame.writeChoice]
      exact run
    · simp only [here, decide_false, Bool.toNat_false, Nat.cast_zero, if_true] at merged
      obtain ⟨goes', passed, ahead⟩ :=
        storeChoices_agrees cs others value merged feeds (i + 1) last rest
      refine ⟨Bool.or_eq_false_iff.mpr ⟨goes, goes'⟩, fun h => passed (by omega), fun h => ?_⟩
      -- The chosen target lies further on, and a run steps over this one.
      obtain ⟨j, jump⟩ : ∃ j, min k last - i = j + 1 := ⟨min k last - i - 1, by omega⟩
      obtain ⟨g, run, final⟩ := ahead (by omega)
      refine ⟨g, ?_, final⟩
      rw [jump, Frame.writeChoice]
      rwa [show min k last - (i + 1) = j by omega] at run
end

end Symbolic

end Gateware
