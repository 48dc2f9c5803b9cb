import Gateware.Proofs.Settling

/-!
# Stability of settling

Settling makes one round of asynchronous resets. A reset that is derived from registers which are
reset in that round themselves is seen too late, so settling once more may still change something.

## Main results

* `settle_stable_iff`: settling again changes nothing exactly if the registers of every domain whose
  asynchronous reset reads as asserted hold their reset values; and settling as often as there are
  asynchronously reset domains gets there.
* `Reachable.invariant`: what loading gives and each step keeps holds in all reachable simulations.

## Proof strategy

A pass ends in a state that depends only on the signals no process drives, and those change in the
round of resets only, where they can only go to their reset values. So if settling again changes
anything, one more domain has all of these registers at reset, and there are only so many domains.
-/
namespace Gateware.Simulator

open Process

/-! ### A round of resets -/

/-- The second state comes from the first by setting some signals to their reset values. -/
def ResetFrom (σ τ : SimState) : Prop :=
  ∀ s, τ.get? s = σ.get? s ∨ τ.get? s = some s.resetValue

theorem ResetFrom.refl (σ : SimState) : ResetFrom σ σ := fun _ => .inl rfl

theorem ResetFrom.trans {σ τ υ : SimState} (first : ResetFrom σ τ) (second : ResetFrom τ υ) :
    ResetFrom σ υ := by
  intro s
  rcases second s with same | reset
  · rw [same]
    exact first s
  · exact .inr reset

/-- The step of a round for one register. -/
def resetOne (acc : SimState × Bool) (s : Signal) : SimState × Bool :=
  if acc.1.get? s = some s.resetValue then acc else (acc.1.insert s s.resetValue, true)

theorem get?_resetOne (acc : SimState × Bool) (s t : Signal) :
    (resetOne acc s).1.get? t = if t = s then some s.resetValue else acc.1.get? t := by
  unfold resetOne
  split
  next already =>
    by_cases same : t = s
    · rw [if_pos same, same, already]
    · rw [if_neg same]
  next => exact OrdMap.get?_insert ..

theorem get?_foldl_resetOne (rs : List Signal) (acc : SimState × Bool) (t : Signal) :
    (rs.foldl resetOne acc).1.get? t =
      if t ∈ rs then some t.resetValue else acc.1.get? t := by
  induction rs generalizing acc with
  | nil => simp
  | cons r rs ih =>
    rw [List.foldl_cons, ih, get?_resetOne]
    by_cases later : t ∈ rs
    · simp [later]
    · by_cases here : t = r
      · subst here
        simp [later]
      · simp [later, here]

theorem foldl_resetOne_of_unchanged {rs : List Signal} {acc : SimState × Bool}
    (h : (rs.foldl resetOne acc).2 = false) : rs.foldl resetOne acc = acc := by
  induction rs generalizing acc with
  | nil => rfl
  | cons r rs ih =>
    rw [List.foldl_cons] at h ⊢
    have rest := ih h
    rw [rest] at h ⊢
    unfold resetOne at h ⊢
    split
    next => rfl
    next moved => simp [moved] at h

theorem holdReset_eq (sync : OrdMap String (List Stmt)) (acc : SimState × Bool) (d : ClockDomain) :
    holdReset sync acc d =
      if asserted acc.1 d then (resettable (sync.getD d.name [])).foldl resetOne acc else acc := rfl

section Round

variable (sync : OrdMap String (List Stmt))

/-- The registers of a domain that resets act on and no process drives hold their reset values. -/
def AtReset (ps : List Process) (σ : SimState) (d : ClockDomain) : Prop :=
  ∀ r ∈ resettable (sync.getD d.name []), ¬ Driven ps r → σ.get? r = some r.resetValue

instance (ps : List Process) (σ : SimState) (d : ClockDomain) : Decidable (AtReset sync ps σ d) :=
  inferInstanceAs (Decidable (∀ r ∈ resettable (sync.getD d.name []), ¬ Driven ps r → _))

/-- The states hold the same of all signals that no process drives. -/
def SameOutside (ps : List Process) (σ τ : SimState) : Prop :=
  ∀ s, ¬ Driven ps s → τ.get? s = σ.get? s

variable {ps : List Process}

theorem AtReset.mono {σ τ : SimState} {d : ClockDomain} (h : AtReset sync ps σ d)
    (reset : ResetFrom σ τ) : AtReset sync ps τ d := by
  intro r hr undriven
  rcases reset r with same | done
  · rw [same]
    exact h r hr undriven
  · exact done

theorem AtReset.congr {σ τ : SimState} {d : ClockDomain} (h : AtReset sync ps σ d)
    (same : SameOutside ps σ τ) : AtReset sync ps τ d :=
  fun r hr undriven => (same r undriven).trans (h r hr undriven)

theorem get?_holdReset (acc : SimState × Bool) (d : ClockDomain) (s : Signal) :
    (holdReset sync acc d).1.get? s =
      if asserted acc.1 d = true ∧ s ∈ resettable (sync.getD d.name []) then some s.resetValue
      else acc.1.get? s := by
  rw [holdReset_eq]
  by_cases on : asserted acc.1 d = true
  · simp only [on, if_true, get?_foldl_resetOne, true_and]
  · simp [on]

theorem resetFrom_holdReset (acc : SimState × Bool) (d : ClockDomain) :
    ResetFrom acc.1 (holdReset sync acc d).1 := by
  intro s
  rw [get?_holdReset]
  split
  · exact .inr rfl
  · exact .inl rfl

theorem resetFrom_foldl (ds : List ClockDomain) (acc : SimState × Bool) :
    ResetFrom acc.1 (ds.foldl (holdReset sync) acc).1 := by
  induction ds generalizing acc with
  | nil => exact .refl _
  | cons d ds ih => exact (resetFrom_holdReset sync acc d).trans (ih _)

theorem asyncReset_of_asserted {σ : SimState} {d : ClockDomain} (on : asserted σ d = true) :
    d.asyncReset = true := by
  rw [asserted, Bool.and_eq_true] at on
  exact on.1

/-- A round only changes registers of the domains that it finds asserted. -/
theorem foldl_holdReset_other {ds : List ClockDomain} {s : Signal}
    (other : ∀ d ∈ ds, s ∈ resettable (sync.getD d.name []) → ∀ σ, asserted σ d = false)
    (acc : SimState × Bool) : (ds.foldl (holdReset sync) acc).1.get? s = acc.1.get? s := by
  induction ds generalizing acc with
  | nil => rfl
  | cons d ds ih =>
    rw [List.foldl_cons, ih fun d' hd' => other d' (List.mem_cons_of_mem _ hd'), get?_holdReset,
      if_neg]
    rintro ⟨on, acts⟩
    rw [other d (by simp) acts] at on
    cases on

theorem foldl_holdReset_unchanged {ds : List ClockDomain} {acc : SimState × Bool}
    (h : (ds.foldl (holdReset sync) acc).2 = false) : ds.foldl (holdReset sync) acc = acc := by
  induction ds generalizing acc with
  | nil => rfl
  | cons d ds ih =>
    rw [List.foldl_cons] at h ⊢
    have rest := ih h
    rw [rest] at h ⊢
    rw [holdReset_eq] at h ⊢
    split
    next on =>
      rw [if_pos on] at h
      exact foldl_resetOne_of_unchanged h
    next => rfl

theorem atReset_holdReset {acc : SimState × Bool} {d : ClockDomain}
    (on : asserted acc.1 d = true) : AtReset sync ps (holdReset sync acc d).1 d := by
  intro r hr _
  rw [get?_holdReset, if_pos ⟨on, hr⟩]

/-- A round that changes a signal which no process drives brings all such registers of one more
domain to reset. -/
theorem exists_atReset {ds : List ClockDomain} {acc : SimState × Bool}
    (moved : ¬ SameOutside ps acc.1 (ds.foldl (holdReset sync) acc).1) :
    ∃ d ∈ ds, d.asyncReset = true ∧ ¬ AtReset sync ps acc.1 d ∧
      AtReset sync ps (ds.foldl (holdReset sync) acc).1 d := by
  induction ds generalizing acc with
  | nil => exact absurd (fun _ _ => rfl) moved
  | cons d ds ih =>
    rw [List.foldl_cons] at moved ⊢
    by_cases here : SameOutside ps acc.1 (holdReset sync acc d).1
    · have later : ¬ SameOutside ps (holdReset sync acc d).1
          (ds.foldl (holdReset sync) (holdReset sync acc d)).1 :=
        fun same => moved fun s undriven => (same s undriven).trans (here s undriven)
      obtain ⟨e, he, async, before, after⟩ := ih later
      exact ⟨e, List.mem_cons_of_mem _ he, async,
        fun reset => before (reset.congr sync here), after⟩
    · simp only [SameOutside, Classical.not_forall] at here
      obtain ⟨s, undriven, changed⟩ := here
      rw [get?_holdReset] at changed
      split at changed
      next fired =>
        refine ⟨d, List.mem_cons_self .., asyncReset_of_asserted fired.1, fun reset => ?_,
          (atReset_holdReset sync fired.1).mono sync (resetFrom_foldl sync ds _)⟩
        exact changed (reset s fired.2 undriven).symm
      next => exact absurd rfl changed

end Round

/-! ### Rounds that leave resets as they read -/

/-- No asynchronous reset is at once a register that resets act on and driven by a process. -/
def ResetsSingle (sim : Simulator) : Prop :=
  ∀ d ∈ sim.domains, d.asyncReset = true → ∀ rst, d.rst = some rst → Driven sim.processes rst →
    ∀ e ∈ sim.domains, rst ∉ resettable (sim.sync.getD e.name [])

instance (sim : Simulator) : Decidable sim.ResetsSingle :=
  decidable_of_iff (∀ d ∈ sim.domains, d.asyncReset = true → ∀ rst ∈ d.rst,
    Driven sim.processes rst → ∀ e ∈ sim.domains, rst ∉ resettable (sim.sync.getD e.name []))
    Iff.rfl

/-- A state that agrees with that of a simulation on the asynchronous resets and on all signals that
no process drives. -/
structure Calm (sim : Simulator) (τ : SimState) : Prop where
  outside : SameOutside sim.processes sim.state τ
  resets : ∀ d ∈ sim.domains, d.asyncReset = true → ∀ rst, d.rst = some rst →
    τ.get? rst = sim.state.get? rst

namespace Calm

variable {sim : Simulator} {acc : SimState × Bool} {d : ClockDomain}

theorem asserted_eq {τ : SimState} (calm : Calm sim τ) (hd : d ∈ sim.domains) :
    asserted τ d = asserted sim.state d := by
  rw [asserted, asserted]
  cases async : d.asyncReset with
  | false => rfl
  | true =>
    cases named : d.rst with
    | none => rfl
    | some rst => simp only [Option.any_some, calm.resets d hd async rst named]

theorem sameOutside_iff (calm : Calm sim acc.1) (hd : d ∈ sim.domains) :
    SameOutside sim.processes sim.state (holdReset sim.sync acc d).1 ↔
      (asserted sim.state d = true → AtReset sim.sync sim.processes sim.state d) := by
  constructor
  · intro same on r hr undriven
    rw [← same r undriven, get?_holdReset, calm.asserted_eq hd, if_pos ⟨on, hr⟩]
  · intro reset s undriven
    rw [get?_holdReset, calm.asserted_eq hd]
    split
    next fired => exact (reset fired.1 s fired.2 undriven).symm
    next => exact calm.outside s undriven

theorem step (single : sim.ResetsSingle) (calm : Calm sim acc.1) (hd : d ∈ sim.domains)
    (outside : SameOutside sim.processes sim.state (holdReset sim.sync acc d).1) :
    Calm sim (holdReset sim.sync acc d).1 := by
  refine ⟨outside, fun e he async rst named => ?_⟩
  by_cases driven : Driven sim.processes rst
  · rw [get?_holdReset, if_neg fun fired => single e he async rst named driven d hd fired.2]
    exact calm.resets e he async rst named
  · exact outside rst driven

/-- A round leaves alone what no process drives exactly if the registers of every domain whose reset
is asserted are at reset. -/
theorem sameOutside_foldl_iff (single : sim.ResetsSingle) {ds : List ClockDomain}
    (sub : ∀ d ∈ ds, d ∈ sim.domains) (calm : Calm sim acc.1) :
    SameOutside sim.processes sim.state (ds.foldl (holdReset sim.sync) acc).1 ↔
      ∀ d ∈ ds, asserted sim.state d = true → AtReset sim.sync sim.processes sim.state d := by
  induction ds generalizing acc with
  | nil => exact ⟨fun _ d hd => absurd hd List.not_mem_nil, fun _ => calm.outside⟩
  | cons d ds ih =>
    have hd := sub d List.mem_cons_self
    have rest := fun outside => ih (fun e he => sub e (List.mem_cons_of_mem _ he))
      (calm.step single hd outside)
    rw [List.foldl_cons, List.forall_mem_cons, ← calm.sameOutside_iff hd]
    constructor
    · intro same
      -- What a round has set to its reset value stays there, so the first step changed nothing.
      have first : SameOutside sim.processes sim.state (holdReset sim.sync acc d).1 := by
        intro s undriven
        rcases resetFrom_holdReset sim.sync acc d s with kept | reset
        · exact kept.trans (calm.outside s undriven)
        · rcases resetFrom_foldl sim.sync ds (holdReset sim.sync acc d) s with kept | later
          · exact kept.symm.trans (same s undriven)
          · exact reset.trans (later.symm.trans (same s undriven))
      exact ⟨first, (rest first).mp same⟩
    · rintro ⟨first, later⟩
      exact (rest first).mpr later

end Calm

/-! ### Settling twice -/

/-- The processes of a simulation are sound and find what they read. -/
structure Orderly (sim : Simulator) : Prop where
  sound : ∀ p ∈ sim.processes, p.Sound
  ready : Ready (Driven sim.processes) (fun _ => False) sim.processes

theorem resetRound_unchanged {sync : OrdMap String (List Stmt)} {domains : List ClockDomain}
    {σ : SimState} (h : (resetRound sync domains σ).2 = false) :
    (resetRound sync domains σ).1 = σ :=
  congrArg Prod.fst (foldl_holdReset_unchanged sync h)

/-- A round of resets from the state changes nothing that no process drives. -/
def RoundIdle (sim : Simulator) : Prop :=
  SameOutside sim.processes sim.state (resetRound sim.sync sim.domains sim.state).1

theorem roundIdle_iff {sim : Simulator} (single : sim.ResetsSingle) :
    sim.RoundIdle ↔ ∀ d ∈ sim.domains, asserted sim.state d = true →
      AtReset sim.sync sim.processes sim.state d :=
  have calm : Calm sim (sim.state, false).1 := ⟨fun _ _ => rfl, fun _ _ _ _ _ => rfl⟩
  calm.sameOutside_foldl_iff single fun _ hd => hd

/-- What passes and rounds of resets keep, settling keeps. -/
theorem settled_invariant {P : SimState → Prop} {sim : Simulator}
    (passes : ∀ σ, P σ → P (pass sim.memories sim.processes σ).2)
    (rounds : ∀ σ, P σ → P (resetRound sim.sync sim.domains σ).1) (h : P sim.state) :
    P sim.settled.2 := by
  have first := passes _ h
  unfold settled
  generalize pass sim.memories sim.processes sim.state = ended at first
  obtain ⟨e | u, σ⟩ := ended
  · exact first
  · dsimp only
    split
    · exact passes _ (rounds _ first)
    · exact rounds _ first

/-- Settling ends in a state that its own round of resets was made from, or in one that a pass
reached after the round. -/
theorem settled_cases {sim : Simulator} {τ : SimState} (h : sim.settled = (.ok (), τ)) :
    ∃ σ, pass sim.memories sim.processes sim.state = (.ok (), σ) ∧
      ((resetRound sim.sync sim.domains σ).1 = σ ∧ τ = σ ∨
        pass sim.memories sim.processes (resetRound sim.sync sim.domains σ).1 = (.ok (), τ)) := by
  unfold settled at h
  rcases first : pass sim.memories sim.processes sim.state with ⟨e | u, σ⟩
  · rw [first] at h
    cases h
  · simp only [first] at h
    refine ⟨σ, rfl, ?_⟩
    by_cases changed : (resetRound sim.sync sim.domains σ).2 = true
    · rw [if_pos changed] at h
      exact .inr h
    · have same := resetRound_unchanged (Bool.eq_false_iff.mpr changed)
      rw [if_neg changed] at h
      exact .inl ⟨same, (congrArg Prod.snd h).symm.trans same⟩

/-! ### What settling leaves alone -/

section Undriven

variable {sim : Simulator} (own : ∀ p ∈ sim.processes, p.Owns) {s : Signal}
  (undriven : ¬ Driven sim.processes s) {τ : SimState} (h : sim.settled = (.ok (), τ))

include own undriven h

/-- What no process drives is changed by the round of resets only. -/
theorem settled_undriven : ∃ σ, σ.get? s = sim.state.get? s ∧
    (τ.get? s = σ.get? s ∨ τ.get? s = (resetRound sim.sync sim.domains σ).1.get? s) := by
  obtain ⟨σ, first, rest⟩ := settled_cases h
  have kept := pass_keeps own undriven sim.memories sim.state
  rw [first] at kept
  refine ⟨σ, kept, ?_⟩
  rcases rest with ⟨-, rfl⟩ | second
  · exact .inl rfl
  · have again := pass_keeps own undriven sim.memories (resetRound sim.sync sim.domains σ).1
    rw [second] at again
    exact .inr again

/-- Settling keeps what neither logic drives nor an asynchronous reset acts on. -/
theorem settled_keeps (free : ∀ d ∈ sim.domains, s ∈ resettable (sim.sync.getD d.name []) →
    ∀ σ, asserted σ d = false) : τ.get? s = sim.state.get? s := by
  obtain ⟨σ, kept, same | round⟩ := settled_undriven own undriven h
  · exact same.trans kept
  · exact (round.trans (foldl_holdReset_other sim.sync free (σ, false))).trans kept

/-- Settling keeps what logic does not drive, or resets it. -/
theorem settled_resets : τ.get? s = sim.state.get? s ∨ τ.get? s = some s.resetValue := by
  obtain ⟨σ, kept, same | round⟩ := settled_undriven own undriven h
  · exact .inl (same.trans kept)
  · rw [round, ← kept]
    exact resetFrom_foldl sim.sync sim.domains (σ, false) s

end Undriven

/-! ### Settling again changes nothing -/

/-- Settled logic stays as it is in another pass. -/
theorem Orderly.pass_settled {sim : Simulator} (ok : sim.Orderly) {τ : SimState}
    (h : sim.settled = (.ok (), τ)) : pass sim.memories sim.processes τ = (.ok (), τ) := by
  obtain ⟨σ, first, ⟨-, rfl⟩ | second⟩ := settled_cases h
  · exact pass_idem ok.ready ok.sound first
  · exact pass_idem ok.ready ok.sound second

/-- Where logic is settled, settling changes nothing exactly if a round of resets would leave alone
what no process drives. -/
theorem Orderly.settled_eq_iff {sim : Simulator} (ok : sim.Orderly)
    (logic : pass sim.memories sim.processes sim.state = (.ok (), sim.state)) :
    sim.settled = (.ok (), sim.state) ↔ sim.RoundIdle := by
  simp only [settled, logic]
  constructor
  · intro stays s undriven
    split at stays
    next =>
      have kept := pass_undriven ok.sound undriven sim.memories
        (resetRound sim.sync sim.domains sim.state).1
      rw [stays] at kept
      exact kept.symm
    next =>
      rw [show (resetRound sim.sync sim.domains sim.state).1 = _ from congrArg Prod.snd stays]
  · intro idle
    split
    next =>
      exact pass_eq_of_undriven ok.ready ok.sound (fun s undriven => (idle s undriven).symm) logic
    next unchanged => rw [resetRound_unchanged (Bool.eq_false_iff.mpr unchanged)]

/-! ### Settling again and again -/

/-- Settle a number of times. -/
def settleTimes : Nat → Step Unit
  | 0 => pure ()
  | k + 1 => do
    settleTimes k
    settle

/-- The asynchronously reset domains. -/
def asyncDomains (sim : Simulator) : List ClockDomain := sim.domains.filter (·.asyncReset)

/-- How many asynchronously reset domains have their registers at reset. -/
def resetCount (sim : Simulator) : Nat :=
  sim.asyncDomains.countP fun d => AtReset sim.sync sim.processes sim.state d

theorem countP_lt_countP {α : Type} {p q : α → Bool} {xs : List α}
    (sub : ∀ x ∈ xs, p x = true → q x = true) {a : α} (ha : a ∈ xs) (hp : p a = false)
    (hq : q a = true) : xs.countP p < xs.countP q := by
  induction xs with
  | nil => cases ha
  | cons x xs ih =>
    have rest := List.countP_mono_left fun y hy => sub y (List.mem_cons_of_mem _ hy)
    rw [List.countP_cons, List.countP_cons]
    rcases List.mem_cons.mp ha with rfl | ha
    · rw [if_pos hq, if_neg (Bool.eq_false_iff.mp hp)]
      omega
    · have later := ih (fun y hy => sub y (List.mem_cons_of_mem _ hy)) ha
      have head := sub x (by simp)
      by_cases hx : p x = true
      · rw [if_pos hx, if_pos (head hx)]
        omega
      · rw [if_neg hx]
        omega

theorem run_settle_ok {sim after : Simulator} (h : settle.run.run sim = (.ok (), after)) :
    sim.settled = (.ok (), after.state) ∧ after = { sim with state := after.state } := by
  rw [run_settle] at h
  obtain ⟨ended, rfl⟩ := Prod.mk.inj h
  exact ⟨Prod.ext ended rfl, rfl⟩

theorem run_settle_eq_iff (sim : Simulator) :
    settle.run.run sim = (.ok (), sim) ↔ sim.settled = (.ok (), sim.state) := by
  constructor
  · exact fun h => (run_settle_ok h).1
  · intro h
    rw [run_settle, h]

/-- Settling again either changes nothing, or brings the registers of one more domain to reset. -/
theorem Orderly.settle_resets {sim after : Simulator} (ok : sim.Orderly)
    (h : settle.run.run sim = (.ok (), after)) :
    settle.run.run after = (.ok (), after) ∨ sim.resetCount < after.resetCount := by
  obtain ⟨h, same⟩ := run_settle_ok h
  have logic := ok.pass_settled h
  have quiet : SameOutside sim.processes after.state
      (resetRound sim.sync sim.domains after.state).1 → settle.run.run after = (.ok (), after) := by
    intro idle
    rw [run_settle_eq_iff, same]
    have ok' : { sim with state := after.state }.Orderly := ⟨ok.sound, ok.ready⟩
    exact (ok'.settled_eq_iff logic).mpr idle
  have kept : ∀ {σ τ : SimState}, pass sim.memories sim.processes σ = (.ok (), τ) →
      SameOutside sim.processes σ τ := by
    intro σ τ run s undriven
    have kept := pass_undriven ok.sound undriven sim.memories σ
    rwa [run] at kept
  obtain ⟨σ, first, ⟨unmoved, equal⟩ | second⟩ := settled_cases h
  · refine .inl (quiet ?_)
    rw [equal, unmoved]
    exact fun _ _ => rfl
  · by_cases idle : SameOutside sim.processes σ (resetRound sim.sync sim.domains σ).1
    · -- The round changed nothing that passes depend on, so the second one ended like the first.
      have again := pass_eq_of_undriven ok.ready ok.sound (fun s undriven => (idle s undriven).symm)
        (pass_idem ok.ready ok.sound first)
      have equal : σ = after.state := congrArg Prod.snd (again.symm.trans second)
      exact .inl (quiet (equal ▸ idle))
    · right
      obtain ⟨d, hd, async, before, reset⟩ := exists_atReset sim.sync idle
      rw [same, resetCount, resetCount]
      refine countP_lt_countP (fun d hd early => ?_) (List.mem_filter.mpr ⟨hd, async⟩) ?_ ?_
      · have early := (of_decide_eq_true early : AtReset sim.sync _ _ d).congr sim.sync (kept first)
        have mid := early.mono sim.sync (resetFrom_foldl sim.sync sim.domains (σ, false))
        exact decide_eq_true (mid.congr sim.sync (kept second))
      · exact decide_eq_false fun already => before (already.congr sim.sync (kept first))
      · exact decide_eq_true (reset.congr sim.sync (kept second))

theorem run_settleTimes_succ (k : Nat) (sim : Simulator) :
    (settleTimes (k + 1)).run.run sim =
      match (settleTimes k).run.run sim with
      | (.ok _, mid) => settle.run.run mid
      | (.error e, mid) => (.error e, mid) := by
  simp only [settleTimes, run_bind]
  rcases (settleTimes k).run.run sim with ⟨e | u, mid⟩ <;> rfl

/-- After any number of rounds the design is the same, and unless they brought the registers of as
many domains to reset, settling has become stable. -/
theorem Orderly.settleTimes_resets {sim after : Simulator} (ok : sim.Orderly) {k : Nat}
    (h : (settleTimes (k + 1)).run.run sim = (.ok (), after)) :
    after = { sim with state := after.state } ∧
      pass after.memories after.processes after.state = (.ok (), after.state) ∧
      (settle.run.run after = (.ok (), after) ∨ k + 1 ≤ after.resetCount) := by
  induction k generalizing after with
  | zero =>
    rw [run_settleTimes_succ] at h
    have h : settle.run.run sim = (.ok (), after) := h
    obtain ⟨ended, same⟩ := run_settle_ok h
    refine ⟨same, ?_, (ok.settle_resets h).imp id fun more => by omega⟩
    rw [same]
    exact ok.pass_settled ended
  | succ k ih =>
    rw [run_settleTimes_succ] at h
    rcases first : (settleTimes (k + 1)).run.run sim with ⟨e | u, mid⟩
    · rw [first] at h
      cases h
    · simp only [first] at h
      obtain ⟨same, -, stable | many⟩ := ih first
      · rw [stable] at h
        cases h
        exact ⟨same, (ih first).2.1, .inl stable⟩
      · obtain ⟨ended, next⟩ := run_settle_ok h
        have ok' : mid.Orderly := by
          rw [same]
          exact ⟨ok.sound, ok.ready⟩
        refine ⟨?_, ?_, (ok'.settle_resets h).imp id fun more => by omega⟩
        · rw [next, same]
        · rw [next]
          exact ok'.pass_settled ended

/-- Settling as often as there are asynchronously reset domains, at least once, is enough. -/
theorem Orderly.settleTimes_stable {sim after : Simulator} (ok : sim.Orderly) {k : Nat}
    (some : 1 ≤ k) (enough : sim.asyncDomains.length ≤ k)
    (h : (settleTimes k).run.run sim = (.ok (), after)) :
    settle.run.run after = (.ok (), after) := by
  obtain ⟨k, rfl⟩ := Nat.exists_eq_add_of_le' some
  obtain ⟨same, logic, stable | many⟩ := ok.settleTimes_resets h
  · exact stable
  · have ok' : after.Orderly := by
      rw [same]
      exact ⟨ok.sound, ok.ready⟩
    have domains : after.asyncDomains = sim.asyncDomains := by
      rw [same]
      rfl
    have all : ∀ d ∈ after.asyncDomains, AtReset after.sync after.processes after.state d := by
      have bound : after.resetCount ≤ after.asyncDomains.length := List.countP_le_length
      have full : after.resetCount = after.asyncDomains.length := by
        rw [domains] at bound ⊢
        omega
      exact fun d hd => of_decide_eq_true (List.countP_eq_length.mp full d hd)
    -- All domains are at reset, so a round that changed anything would have nothing to bring there.
    refine (run_settle_eq_iff after).mpr ((ok'.settled_eq_iff logic).mpr ?_)
    by_contra moved
    obtain ⟨d, hd, async, before, -⟩ := exists_atReset after.sync moved
    exact before (all d (List.mem_filter.mpr ⟨hd, async⟩))

/-! ### Reachable simulations -/

/-- The simulations a netlist can get into. What a failed step has done stays done. -/
inductive Reachable (n : Netlist) : Simulator → Prop
  | start {sim : Simulator} (started : Starts n sim) : Reachable n sim
  | poke {sim : Simulator} (s : Signal) (v : Int) (before : Reachable n sim) :
    Reachable n (sim.poke s v)
  | settle {sim : Simulator} (before : Reachable n sim) : Reachable n (settle.run.run sim).2
  | tick {sim : Simulator} (domain : String) (before : Reachable n sim) :
    Reachable n ((tick domain).run.run sim).2

/-- Two simulations of the same design. -/
structure SameDesign (a b : Simulator) : Prop where
  processes : a.processes = b.processes
  sync : a.sync = b.sync
  domains : a.domains = b.domains

theorem sameDesign_settle (sim : Simulator) : SameDesign (settle.run.run sim).2 sim := by
  rw [run_settle]
  exact ⟨rfl, rfl, rfl⟩

theorem SameDesign.trans {a b c : Simulator} (ab : SameDesign a b) (bc : SameDesign b c) :
    SameDesign a c :=
  ⟨ab.processes.trans bc.processes, ab.sync.trans bc.sync, ab.domains.trans bc.domains⟩

theorem sameDesign_clockEdge {sim after : Simulator} {domain : String}
    (h : sim.clockEdge domain = .ok after) : SameDesign after sim := by
  obtain ⟨writes, -, same⟩ := bind_eq_ok.mp h
  cases same
  exact ⟨rfl, rfl, rfl⟩

theorem run_tick (domain : String) (sim : Simulator) :
    (tick domain).run.run sim =
      if sim.knows domain then
        match settle.run.run sim with
        | (.error e, mid) => (.error e, mid)
        | (.ok _, mid) =>
          match mid.clockEdge domain with
          | .error e => (.error e, mid)
          | .ok next => settle.run.run next
      else (.error (.unknownDomain domain), sim) := by
  simp only [tick, run_bind, run_get]
  cases known : sim.knows domain with
  | false => rfl
  | true =>
    simp only [Bool.not_true, Bool.false_eq_true, if_false, if_true, run_bind]
    rcases settle.run.run sim with ⟨e | u, mid⟩
    · rfl
    · simp only [run_get, run_lift]
      cases mid.clockEdge domain <;> rfl

section Invariant

variable {P : Simulator → Prop} (settles : ∀ sim, P sim → P (Simulator.settle.run.run sim).2)
  (edges : ∀ sim domain next, P sim → sim.clockEdge domain = .ok next → P next)

include settles edges

/-- A tick keeps what settling and clock edges keep, also if it fails. -/
theorem tick_keeps {sim : Simulator} (h : P sim) (domain : String) :
    P ((tick domain).run.run sim).2 := by
  rw [run_tick]
  split
  · have first := settles sim h
    generalize Simulator.settle.run.run sim = ended at first ⊢
    obtain ⟨e | u, mid⟩ := ended
    · exact first
    · simp only
      cases edge : mid.clockEdge domain with
      | error e => exact first
      | ok next => exact settles next (edges mid domain next first edge)
  · exact h

/-- What loading gives and each step keeps holds of all reachable simulations. -/
theorem Reachable.invariant {n : Netlist} (loads : ∀ first, Loads n first → P first)
    (pokes : ∀ sim s v, P sim → P (sim.poke s v)) {sim : Simulator} (h : Reachable n sim) :
    P sim := by
  induction h with
  | start started =>
    obtain ⟨first, loaded, -, rfl⟩ := started
    have settled := settles first (loads first loaded)
    rwa [run_settle] at settled
  | poke s v _ ih => exact pokes _ s v ih
  | settle _ ih => exact settles _ ih
  | tick domain _ ih => exact tick_keeps settles edges ih domain

end Invariant

theorem Reachable.sameDesign {n : Netlist} {sim : Simulator} (h : Reachable n sim) :
    ∃ first, Loads n first ∧ SameDesign sim first := by
  refine h.invariant (P := fun sim => ∃ first, Loads n first ∧ SameDesign sim first) ?_ ?_ ?_ ?_
  · rintro sim ⟨first, loads, same⟩
    exact ⟨first, loads, (sameDesign_settle sim).trans same⟩
  · rintro sim domain next ⟨first, loads, same⟩ edge
    exact ⟨first, loads, (sameDesign_clockEdge edge).trans same⟩
  · exact fun first loads => ⟨first, loads, rfl, rfl, rfl⟩
  · rintro sim s v ⟨first, loads, same⟩
    exact ⟨first, loads, same.processes, same.sync, same.domains⟩

theorem Reachable.orderly {n : Netlist} {sim : Simulator} (h : Reachable n sim) : sim.Orderly := by
  obtain ⟨first, loads, same⟩ := h.sameDesign
  constructor
  · rw [same.processes]
    exact loads.sound
  · rw [same.processes]
    exact loads.ready

/-! ### Signals that have values -/

theorem isSome_pass {s : Signal} (ms : List MemoryState) (ps : List Process) {σ : SimState}
    (there : (σ.get? s).isSome = true) : ((pass ms ps σ).2.get? s).isSome = true := by
  induction ps generalizing σ with
  | nil => exact there
  | cons p ps ih =>
    rw [pass]
    cases results ms σ p with
    | error e => exact there
    | ok w => exact ih (OrdMap.isSome_insertAll there _)

theorem ResetFrom.isSome {σ τ : SimState} (reset : ResetFrom σ τ) {s : Signal}
    (there : (σ.get? s).isSome = true) : (τ.get? s).isSome = true := by
  rcases reset s with same | done
  · rw [same]
    exact there
  · rw [done]
    rfl

/-- The signals that a netlist gives values at first have values ever after. -/
theorem Reachable.isSome {n : Netlist} {sim : Simulator} (h : Reachable n sim) {s : Signal}
    (hs : s ∈ signalsOf n) : (sim.state.get? s).isSome = true := by
  refine h.invariant (P := fun sim => (sim.state.get? s).isSome = true) ?_ ?_ ?_ ?_
  · intro sim there
    rw [run_settle]
    exact settled_invariant (P := fun σ => (σ.get? s).isSome = true)
      (fun σ => isSome_pass sim.memories sim.processes)
      (fun σ => (resetFrom_foldl sim.sync sim.domains (σ, false)).isSome) there
  · intro sim domain next there edge
    obtain ⟨writes, -, same⟩ := bind_eq_ok.mp edge
    cases same
    exact OrdMap.isSome_insertAll (OrdMap.isSome_insertAll there _) _
  · intro first loads
    rw [loads.state, OrdMap.get?_ofKeys, if_pos hs]
    rfl
  · exact fun sim t v there => OrdMap.isSome_insertAll there [(t, t.shape.wrap v)]

theorem peek_eq_iff {sim : Simulator} {s : Signal} (there : (sim.state.get? s).isSome = true)
    {v : Int} : sim.peek s = v ↔ sim.state.get? s = some v := by
  obtain ⟨w, found⟩ := Option.isSome_iff_exists.mp there
  rw [peek, SimState.value_of_get? found, found, Option.some.injEq]

namespace Loads

variable {n : Netlist} {first : Simulator} (loads : Loads n first)

include loads

theorem rst_mem_signals {d : ClockDomain} (hd : d ∈ first.domains) {rst : Signal}
    (named : d.rst = some rst) : rst ∈ signalsOf n := by
  refine OrdSet.mem_insertAll.mpr (.inr (List.mem_flatMap.mpr ⟨d, loads.domains ▸ hd, ?_⟩))
  rw [ClockDomain.signals, named]
  exact .tail _ (.head _)

theorem register_mem_signals {domain : String} {r : Signal}
    (hr : r ∈ resettable (first.sync.getD domain [])) : r ∈ signalsOf n := by
  have assigned := OrdSet.mem_toList.mp (List.mem_filter.mp hr).1
  refine OrdSet.mem_insertAll.mpr (.inl (OrdSet.mem_union.mpr
    (.inr (OrdSet.mem_union.mpr (.inl ?_)))))
  obtain ⟨s, hs, assigned⟩ := Stmt.mem_assigned.mp assigned
  refine Stmt.mem_assigned.mpr ⟨s, List.mem_flatten.mpr ?_, assigned⟩
  rw [OrdMap.getD] at hs
  cases found : first.sync.get? domain with
  | none =>
    rw [found] at hs
    cases hs
  | some ss =>
    rw [found] at hs
    rw [← loads.sync]
    exact ⟨ss, List.mem_map.mpr ⟨_, OrdMap.get?_eq_some_iff.mp found, rfl⟩, hs⟩

end Loads

/-- An asynchronous reset is asserted if it reads as anything but zero. -/
theorem Reachable.asserted_iff {n : Netlist} {sim : Simulator} (h : Reachable n sim)
    {d : ClockDomain} (hd : d ∈ sim.domains) :
    asserted sim.state d = true ↔
      d.asyncReset = true ∧ ∃ rst, d.rst = some rst ∧ sim.peek rst ≠ 0 := by
  obtain ⟨first, loads, same⟩ := h.sameDesign
  rw [asserted, Bool.and_eq_true]
  refine and_congr_right fun _ => ?_
  cases named : d.rst with
  | none => simp
  | some rst =>
    obtain ⟨v, found⟩ := Option.isSome_iff_exists.mp
      (h.isSome (loads.rst_mem_signals (same.domains ▸ hd) named))
    simp [peek, SimState.value_of_get? found, found]

theorem Reachable.atReset_iff {n : Netlist} {sim : Simulator} (h : Reachable n sim)
    (d : ClockDomain) : AtReset sim.sync sim.processes sim.state d ↔
      ∀ r ∈ resettable (sim.sync.getD d.name []), ¬ Driven sim.processes r →
        sim.peek r = r.resetValue := by
  obtain ⟨first, loads, same⟩ := h.sameDesign
  refine forall₂_congr fun r hr => imp_congr_right fun _ => (peek_eq_iff (h.isSome ?_)).symm
  rw [same.sync] at hr
  exact loads.register_mem_signals hr

/-- Settling a second time changes nothing exactly if, of every domain whose asynchronous reset
reads as asserted, all registers that resets act on and no process drives hold their reset values;
this is as long as no asynchronous reset is itself both a register and driven by a process. Settling
as often as there are asynchronously reset domains always gets to such a state. -/
theorem settle_stable_iff (n : Netlist) (sim after : Simulator) (reached : Reachable n sim)
    (settles : settle.run.run sim = (.ok (), after)) :
    (after.ResetsSingle →
      (settle.run.run after = (.ok (), after) ↔
        ∀ d ∈ after.domains, d.asyncReset = true → ∀ rst, d.rst = some rst → after.peek rst ≠ 0 →
          ∀ r ∈ resettable (after.sync.getD d.name []), ¬ Driven after.processes r →
            after.peek r = r.resetValue)) ∧
    ∀ k last, 1 ≤ k → after.asyncDomains.length ≤ k →
      (settleTimes k).run.run sim = (.ok (), last) → settle.run.run last = (.ok (), last) := by
  have ok := reached.orderly
  obtain ⟨ended, same⟩ := run_settle_ok settles
  have reached' : Reachable n after := by
    have next := reached.settle
    rwa [settles] at next
  have logic : pass after.memories after.processes after.state = (.ok (), after.state) := by
    rw [same]
    exact ok.pass_settled ended
  refine ⟨fun single => ?_, fun k last some enough h => ?_⟩
  · rw [run_settle_eq_iff, reached'.orderly.settled_eq_iff logic, roundIdle_iff single]
    refine forall₂_congr fun d hd => ?_
    rw [reached'.asserted_iff hd, reached'.atReset_iff d]
    exact ⟨fun h async rst named on => h ⟨async, rst, named, on⟩,
      fun h on => on.2.elim fun rst on' => h on.1 rst on'.1 on'.2⟩
  · rw [same] at enough
    exact ok.settleTimes_stable some enough h

/-! ### A reset that is seen too late -/

open Signal (wire)

namespace Sample

/-- A register that resets to one. -/
def latch (i : Nat) (name : String) : Signal := ⟨⟨i⟩, name, .unsigned 1, 1, false⟩

/-- A counter in a domain whose reset is asserted at once on request and released on two clock
edges, by a chain of registers that the request resets. -/
def guarded : Netlist where
  comb := [
    .assign (wire 4 "arst_clk" 1) (.clock "sys"),
    .assign (wire 5 "arst_rst" 1) (wire 2 "request" 1),
    .assign (.reset "sys") (latch 7 "out")]
  sync := .ofList [
    ("arst", [.assign (latch 6 "meta") (.int 0), .assign (latch 7 "out") (latch 6 "meta")]),
    ("sys", [.assign (wire 3 "count" 4) (.binary .add (wire 3 "count" 4) (.int 1))])]
  domains := [
    { name := "sys", clk := wire 0 "sys_clk" 1, rst := some (wire 1 "sys_rst" 1)
      asyncReset := true },
    { name := "arst", clk := wire 4 "arst_clk" 1, rst := some (wire 5 "arst_rst" 1)
      asyncReset := true }]

/-- Release the reset, count once, and request a reset. -/
def requested (sim : Simulator) : Simulator :=
  let sim := ((tick "arst").run.run sim).2
  let sim := ((tick "arst").run.run sim).2
  let sim := ((tick "sys").run.run sim).2
  sim.poke (wire 2 "request" 1) 1

/-- The reset and the counter. -/
def seenCount (sim : Simulator) : Int × Int :=
  (sim.peek (wire 1 "sys_rst" 1), sim.peek (wire 3 "count" 4))

end Sample

open Sample

theorem reachable_requested {sim : Simulator} (started : start guarded = .ok sim) :
    Reachable guarded (requested sim) :=
  .poke _ _ (.tick _ (.tick _ (.tick _ (.start (starts_of_start started)))))

/-- Two settlings after a request: the reset reads as asserted at once, but the counter follows
only the second time. -/
theorem guarded_trial {sim : Simulator} (started : start guarded = .ok sim) :
    (settle.run.run (requested sim)).1 = .ok () ∧
      seenCount (settle.run.run (requested sim)).2 = (1, 1) ∧
      (settle.run.run (requested sim)).2.ResetsSingle ∧
      (settle.run.run (requested sim)).2.asyncDomains.length = 2 ∧
      (settle.run.run (settle.run.run (requested sim)).2).1 = .ok () ∧
      seenCount (settle.run.run (settle.run.run (requested sim)).2).2 = (1, 0) := by
  apply forall_ok _ sim started
  decide +kernel

/-- Settling once is not always enough. -/
theorem settle_not_idempotent :
    ∃ sim first second, Reachable guarded sim ∧ settle.run.run sim = (.ok (), first) ∧
      settle.run.run first = (.ok (), second) ∧
      seenCount first = (1, 1) ∧ seenCount second = (1, 0) := by
  obtain ⟨sim, started⟩ := exists_ok (by decide +kernel : (start guarded).isOk = true)
  obtain ⟨once, before, -, -, twice, after⟩ := guarded_trial started
  exact ⟨requested sim, _, _, reachable_requested started, eq_ok_of_fst once, eq_ok_of_fst twice,
    before, after⟩

theorem guarded_settles_twice :
    ∃ sim after last, Reachable guarded sim ∧ settle.run.run sim = (.ok (), after) ∧
      after.ResetsSingle ∧ seenCount after = (1, 1) ∧
      settle.run.run after ≠ (.ok (), after) ∧
      (settleTimes 2).run.run sim = (.ok (), last) ∧ settle.run.run last = (.ok (), last) := by
  obtain ⟨sim, started⟩ := exists_ok (by decide +kernel : (start guarded).isOk = true)
  obtain ⟨once, before, single, two, twice, after⟩ := guarded_trial started
  have first : settle.run.run (requested sim) =
      (.ok (), (settle.run.run (requested sim)).2) := eq_ok_of_fst once
  have again : (settleTimes 2).run.run (requested sim) =
      (.ok (), (settle.run.run (settle.run.run (requested sim)).2).2) := by
    rw [run_settleTimes_succ, run_settleTimes_succ]
    change (match settle.run.run (requested sim) with
      | (.ok _, mid) => settle.run.run mid
      | (.error e, mid) => (.error e, mid)) = _
    rw [first]
    exact eq_ok_of_fst twice
  obtain ⟨-, rest⟩ := settle_stable_iff guarded _ _ (reachable_requested started) first
  refine ⟨_, _, _, reachable_requested started, first, single, before, fun stays => ?_, again,
    rest 2 _ (by decide) (Nat.le_of_eq two) again⟩
  have same := congrArg (fun ended => seenCount ended.2) stays
  rw [show seenCount (settle.run.run (settle.run.run (requested sim)).2).2 = _ from after,
    before] at same
  cases same

end Gateware.Simulator
