import Gateware.Proofs.Schedule
import Gateware.Proofs.Statements
import Gateware.Simulation.Simulator

/-!
# A pass over the logic

What a process drives depends on what it reads besides its own signals. So a pass along a schedule
ends where no process changes anything any more, and there is only one such state for given values
of the signals that no process drives.
-/
namespace Gateware

namespace Process

/-- A process as simulations hold it: logic drives what its statements assign, and a read of a
memory does not take its address from its own data. -/
def Sound : Process → Prop
  | logic body writes => writes = Stmt.assigned body ∧ ∀ t ∈ Stmt.targetsOf body, t.isPlace = true
  | asyncRead _ p => p.adr ≠ p.datR
  | registeredRead .. => True

/-- Logic drives what its statements assign. -/
def Owns : Process → Prop
  | logic body writes => writes = Stmt.assigned body
  | _ => True

theorem Sound.owns {p : Process} (sound : p.Sound) : p.Owns := by
  cases p with
  | logic body writes => exact sound.1
  | asyncRead i port => trivial
  | registeredRead i k port => trivial

/-- Logic whose statements run to their end. -/
def Total : Process → Prop
  | logic body _ =>
    Stmt.sugarOf? body = none ∧ Frame.Runnable (Stmt.targetsOf body) (Stmt.exprsOf body)
  | _ => True

/-- Logic whose statements end as `E` says. -/
def Ends (E : Except SimFault Unit → Prop) : Process → Prop
  | logic body _ =>
    Stmt.sugarOf? body = none ∧ Frame.Ends E (Stmt.targetsOf body) (Stmt.exprsOf body)
  | _ => True

theorem Total.ends {p : Process} (total : p.Total) : p.Ends (· = .ok ()) := by
  cases p with
  | logic body writes => exact ⟨total.1, total.2.ends⟩
  | asyncRead i port => trivial
  | registeredRead i k port => trivial

end Process

namespace Simulator

open Process

variable {ms : List MemoryState}

/-! ### What a process drives -/

/-- The frame that logic starts in: its signals hold their reset values. -/
def fresh (σ : SimState) (writes : OrdSet Signal) : Frame :=
  { state := σ, writes := .ofKeys writes Signal.resetValue }

theorem results_logic (ms : List MemoryState) (σ : SimState) (body : List Stmt)
    (writes : OrdSet Signal) :
    results ms σ (.logic body writes) =
      ((Frame.execAll body).run.run (fresh σ writes)).1.map fun _ =>
        ((Frame.execAll body).run.run (fresh σ writes)).2.writes := rfl

/-- A process only looks at the signals it reads and does not drive. -/
theorem results_congr {p : Process} (sound : p.Sound) {σ τ : SimState}
    (same : ∀ s ∈ p.inputs, s ∉ p.outputs → σ.value s = τ.value s) :
    results ms σ p = results ms τ p := by
  cases p with
  | logic body writes =>
    obtain ⟨own, places⟩ := sound
    -- Driven signals start at their reset values in both states; the others that are read agree.
    have start : Frame.Alike (fun s => s ∈ writes ∨ s ∈ Stmt.read body) (fresh σ writes)
        (fresh τ writes) := by
      refine ⟨rfl, rfl, fun _ _ clocked => Bool.noConfusion clocked, fun s hs => ?_⟩
      simp only [Frame.latest, fresh, OrdMap.get?_ofKeys]
      by_cases written : s ∈ writes
      · simp only [if_pos written, Option.getD_some]
      · simp only [if_neg written, Option.getD_none]
        exact same s (hs.resolve_left written) written
    have ended := Frame.execAll_alike start body
      ⟨places, fun s hs => .inl (own ▸ Stmt.drivenBy_iff.mp hs),
        fun s hs => .inr (OrdSet.mem_ofList.mpr hs)⟩
    rw [results_logic, results_logic, ended.1, ended.2.writes]
  | asyncRead i port =>
    have read : σ.value port.adr = τ.value port.adr :=
      same port.adr (OrdSet.mem_singleton.mpr rfl) fun h => sound (OrdSet.mem_singleton.mp h)
    simp only [results, read]
  | registeredRead i k port => rfl

theorem get?_ofList_singleton (s t : Signal) (v : Int) :
    (OrdMap.ofList [(s, v)]).get? t = if t = s then some v else none := by
  change (OrdMap.insert ∅ s v).get? t = _
  rw [OrdMap.get?_insert, OrdMap.get?_empty]

/-- A process gives values to the signals it drives and to no others. -/
theorem results_keys {p : Process} (own : p.Owns) {σ w : SimState}
    (done : results ms σ p = .ok w) (s : Signal) : (w.get? s).isSome ↔ s ∈ p.outputs := by
  cases p with
  | logic body writes =>
    have own : writes = Stmt.assigned body := own
    have stores := Frame.execAll_stores body (fresh σ writes)
    rw [results_logic] at done
    generalize (Frame.execAll body).run.run (fresh σ writes) = ended at done stores
    obtain ⟨e | u, g⟩ := ended
    · cases done
    · cases done
      rw [← OrdMap.mem_keys]
      change _ ↔ s ∈ writes
      have keys : s ∈ (fresh σ writes).writes.keys ↔ s ∈ writes := by
        rw [fresh, OrdMap.keys_ofKeys]
      -- A run keeps the writes it starts with and stores into nothing else.
      constructor
      · intro written
        rcases stores.mem_keys written with early | driven
        · exact keys.mp early
        · exact own ▸ Stmt.drivenBy_iff.mp driven
      · exact fun member => stores.keys_mono (keys.mpr member)
  | asyncRead i port =>
    cases done
    rw [get?_ofList_singleton]
    by_cases h : s = port.datR <;> simp [h, outputs]
  | registeredRead i k port =>
    cases done
    rw [get?_ofList_singleton]
    by_cases h : s = port.datR <;> simp [h, outputs]

/-- How a process ends: it drives something, or its statements stop at a fault. -/
theorem results_ends {E : Except SimFault Unit → Prop} {p : Process} (ends : p.Ends E)
    (ok : E (.ok ())) (ms : List MemoryState) (σ : SimState) :
    (∃ w, results ms σ p = .ok w) ∨ ∃ e, results ms σ p = .error e ∧ E (.error e) := by
  cases p with
  | logic body writes =>
    have ended := Frame.execAll_ends ok body (fresh σ writes) ends.1 ends.2
    rw [results_logic]
    generalize (Frame.execAll body).run.run (fresh σ writes) = run at ended ⊢
    obtain ⟨e | u, g⟩ := run
    · exact .inr ⟨e, rfl, ended⟩
    · exact .inl ⟨g.writes, rfl⟩
  | asyncRead i port => exact .inl ⟨_, rfl⟩
  | registeredRead i k port => exact .inl ⟨_, rfl⟩

theorem override_driven {p : Process} (own : p.Owns) {σ τ w : SimState}
    (done : results ms σ p = .ok w) {s : Signal} (driven : s ∈ p.outputs) :
    (τ.override w).get? s = w.get? s := by
  obtain ⟨v, hv⟩ := Option.isSome_iff_exists.mp ((results_keys own done s).mpr driven)
  rw [OrdMap.get?_override, hv]
  rfl

theorem override_undriven {p : Process} (own : p.Owns) {σ τ w : SimState}
    (done : results ms σ p = .ok w) {s : Signal} (undriven : s ∉ p.outputs) :
    (τ.override w).get? s = τ.get? s := by
  have none : w.get? s = none := by
    cases h : w.get? s with
    | none => rfl
    | some v => exact absurd ((results_keys own done s).mp (by simp [h])) undriven
  rw [OrdMap.get?_override, none]
  rfl

theorem value_congr {σ τ : SimState} {s : Signal} (h : σ.get? s = τ.get? s) :
    σ.value s = τ.value s := by
  simp only [SimState.value, OrdMap.getD, h]

/-! ### Passes -/

/-- One pass along a list of processes. -/
def pass (ms : List MemoryState) : List Process → SimState → Except SimFault Unit × SimState
  | [], σ => (.ok (), σ)
  | p :: ps, σ =>
    match results ms σ p with
    | .ok w => pass ms ps (σ.override w)
    | .error e => (.error e, σ)

theorem run_runProcess (p : Process) (sim : Simulator) :
    (runProcess p).run.run sim =
      match results sim.memories sim.state p with
      | .ok w => (.ok (), { sim with state := sim.state.override w })
      | .error e => (.error e, sim) := by
  simp only [runProcess, run_bind, run_get, run_lift]
  cases results sim.memories sim.state p <;> rfl

theorem run_forM (ps : List Process) (sim : Simulator) :
    (ps.forM runProcess).run.run sim =
      ((pass sim.memories ps sim.state).1,
        { sim with state := (pass sim.memories ps sim.state).2 }) := by
  induction ps generalizing sim with
  | nil => rfl
  | cons p ps ih =>
    change (runProcess p >>= fun _ => ps.forM runProcess).run.run sim = _
    rw [run_bind, run_runProcess, pass]
    cases results sim.memories sim.state p with
    | error e => rfl
    | ok w => exact ih { sim with state := sim.state.override w }

theorem run_settleLogic (sim : Simulator) :
    settleLogic.run.run sim =
      ((pass sim.memories sim.processes sim.state).1,
        { sim with state := (pass sim.memories sim.processes sim.state).2 }) := by
  simp only [settleLogic, run_bind, run_get]
  exact run_forM sim.processes sim

theorem pass_ends {E : Except SimFault Unit → Prop} (ok : E (.ok ())) {ps : List Process}
    (ends : ∀ p ∈ ps, p.Ends E) (ms : List MemoryState) (σ : SimState) : E (pass ms ps σ).1 := by
  induction ps generalizing σ with
  | nil => exact ok
  | cons p ps ih =>
    rw [pass]
    rcases results_ends (ends p (by simp)) ok ms σ with ⟨w, done⟩ | ⟨e, failed, fault⟩
    · rw [done]
      exact ih (fun q hq => ends q (List.mem_cons_of_mem _ hq)) _
    · rw [failed]
      exact fault

theorem pass_ok {ps : List Process} (total : ∀ p ∈ ps, p.Total) (ms : List MemoryState)
    (σ : SimState) : (pass ms ps σ).1 = .ok () :=
  pass_ends (E := (· = .ok ())) rfl (fun p hp => (total p hp).ends) ms σ

/-- A pass leaves alone what no process drives. -/
theorem pass_keeps {ps : List Process} (own : ∀ p ∈ ps, p.Owns) {s : Signal}
    (undriven : ¬ Driven ps s) (ms : List MemoryState) (σ : SimState) :
    (pass ms ps σ).2.get? s = σ.get? s := by
  induction ps generalizing σ with
  | nil => rfl
  | cons p ps ih =>
    have rest := ih (fun q hq => own q (List.mem_cons_of_mem _ hq))
      fun ⟨q, hq, drives⟩ => undriven ⟨q, List.mem_cons_of_mem _ hq, drives⟩
    rw [pass]
    cases done : results ms σ p with
    | error e => rfl
    | ok w =>
      rw [rest]
      exact override_undriven (own p (by simp)) done fun h => undriven ⟨p, by simp, h⟩

theorem pass_undriven {ps : List Process} (sound : ∀ p ∈ ps, p.Sound) {s : Signal}
    (undriven : ¬ Driven ps s) (ms : List MemoryState) (σ : SimState) :
    (pass ms ps σ).2.get? s = σ.get? s :=
  pass_keeps (fun p hp => (sound p hp).owns) undriven ms σ

/-! ### States that processes leave alone -/

/-- No process changes anything. -/
def Solved (ms : List MemoryState) (ps : List Process) (σ : SimState) : Prop :=
  ∀ p ∈ ps, ∃ w, results ms σ p = .ok w ∧ σ.override w = σ

theorem Solved.perm {ps qs : List Process} (perm : ps.Perm qs) {σ : SimState}
    (h : Solved ms ps σ) : Solved ms qs σ :=
  fun p hp => h p (perm.mem_iff.mpr hp)

theorem latest_fresh_of_mem {σ : SimState} {writes : OrdSet Signal} {x : Signal} (hx : x ∈ writes) :
    (fresh σ writes).latest x = x.resetValue := by
  rw [Frame.latest, fresh, OrdMap.get?_ofKeys, if_pos hx]
  rfl

theorem latest_fresh_of_not_mem {σ : SimState} {writes : OrdSet Signal} {x : Signal}
    (hx : x ∉ writes) : (fresh σ writes).latest x = σ.value x := by
  rw [Frame.latest, fresh, OrdMap.get?_ofKeys, if_neg hx]
  rfl

/-- In a solved state, what a process drives has the values that its statements leave. -/
theorem Solved.run_logic {ps : List Process} {σ : SimState} (h : Solved ms ps σ)
    {body : List Stmt} {writes : OrdSet Signal} (hp : .logic body writes ∈ ps)
    (sound : (Process.logic body writes).Sound) :
    ∃ g, (Frame.execAll body).run.run (fresh σ writes) = (.ok (), g) ∧
      ∀ x ∈ writes, σ.value x = g.latest x := by
  obtain ⟨w, done, fixed⟩ := h _ hp
  have keys := results_keys sound.owns done
  have driven := fun x hx => override_driven (τ := σ) sound.owns done (s := x) hx
  rw [results_logic] at done
  rcases run : (Frame.execAll body).run.run (fresh σ writes) with ⟨e | u, g⟩
  · rw [run] at done
    cases done
  · rw [run] at done
    obtain rfl := Except.ok.inj done
    refine ⟨g, rfl, fun x hx => ?_⟩
    have stored := driven x hx
    rw [fixed] at stored
    obtain ⟨v, value⟩ := Option.isSome_iff_exists.mp ((keys x).mpr hx)
    rw [Frame.latest, value, SimState.value, OrdMap.getD, stored, value]
    rfl

/-- A pass along a schedule solves all processes at once. -/
theorem pass_solved {ps : List Process} (sound : ∀ p ∈ ps, p.Sound) (apart : Apart ps)
    (scheduled : Scheduled ps) {σ τ : SimState} (h : pass ms ps σ = (.ok (), τ)) :
    Solved ms ps τ := by
  induction ps generalizing σ with
  | nil => exact fun p hp => absurd hp List.not_mem_nil
  | cons p ps ih =>
    have sound_p := sound p (by simp)
    have sound_ps : ∀ q ∈ ps, q.Sound := fun q hq => sound q (List.mem_cons_of_mem _ hq)
    obtain ⟨apart_p, apart_ps⟩ := List.pairwise_cons.mp apart
    obtain ⟨first, scheduled_ps⟩ := List.pairwise_cons.mp scheduled
    rw [pass] at h
    cases done : results ms σ p with
    | error e =>
      rw [done] at h
      cases h
    | ok w =>
      simp only [done] at h
      have keeps : ∀ {s : Signal}, ¬ Driven ps s → τ.get? s = (σ.override w).get? s := by
        intro s undriven
        have kept := pass_undriven sound_ps undriven ms (σ.override w)
        rwa [h] at kept
      rintro q hq
      rcases List.mem_cons.mp hq with rfl | hq
      · -- Nobody later drives what the first process reads or drives.
        have again : results ms τ q = .ok w := by
          rw [← done]
          refine results_congr sound_p fun s reads other => ?_
          refine value_congr ((keeps ?_).trans (override_undriven sound_p.owns done other))
          rintro ⟨r, hr, drives⟩
          exact first r hr s reads drives
        refine ⟨w, again, OrdMap.ext_get? fun s => ?_⟩
        by_cases own : s ∈ q.outputs
        · rw [override_driven sound_p.owns again own, keeps, override_driven sound_p.owns done own]
          rintro ⟨r, hr, drives⟩
          exact apart_p r hr s own drives
        · exact override_undriven sound_p.owns again own
      · exact ih sound_ps apart_ps scheduled_ps h q hq

/-- Two states that processes leave alone are the same if they agree on what nobody drives. -/
theorem Solved.unique {ps : List Process} (sound : ∀ p ∈ ps, p.Sound) (scheduled : Scheduled ps)
    {σ τ : SimState} (hσ : Solved ms ps σ) (hτ : Solved ms ps τ)
    (same : ∀ s, ¬ Driven ps s → σ.get? s = τ.get? s) : σ = τ := by
  -- The processes run so far agree on what they drive.
  have along : ∀ later done : List Process, ps = done ++ later →
      (∀ s, Driven done s → σ.get? s = τ.get? s) → ∀ s, Driven ps s → σ.get? s = τ.get? s := by
    intro later
    induction later with
    | nil =>
      intro done whole agree
      rw [whole, List.append_nil]
      exact agree
    | cons p later ih =>
      intro done whole agree
      have hp : p ∈ ps := by simp [whole]
      obtain ⟨v, given, fixed⟩ := hσ p hp
      obtain ⟨w, given', fixed'⟩ := hτ p hp
      have equal : v = w := by
        have inputs : results ms σ p = results ms τ p := by
          refine results_congr (sound p hp) fun s reads other => value_congr ?_
          by_cases driven : Driven ps s
          · obtain ⟨q, hq, drives⟩ := driven
            rw [whole] at hq scheduled
            rcases List.mem_append.mp hq with early | late
            · exact agree s ⟨q, early, drives⟩
            · rcases List.mem_cons.mp late with rfl | late
              · exact absurd drives other
              · have after := (List.pairwise_append.mp scheduled).2.1
                exact absurd drives ((List.pairwise_cons.mp after).1 q late s reads)
          · exact same s driven
        rw [given, given'] at inputs
        cases inputs
        rfl
      refine ih (done ++ [p]) (by simp [whole]) fun s driven => ?_
      obtain ⟨q, hq, drives⟩ := driven
      rcases List.mem_append.mp hq with early | now
      · exact agree s ⟨q, early, drives⟩
      · obtain rfl := List.mem_singleton.mp now
        rw [← fixed, ← fixed', override_driven (sound q hp).owns given drives,
          override_driven (sound q hp).owns given' drives, equal]
  refine OrdMap.ext_get? fun s => ?_
  by_cases driven : Driven ps s
  · exact along ps [] rfl (fun s ⟨q, hq, _⟩ => absurd hq List.not_mem_nil) s driven
  · exact same s driven

/-- Passes along two schedules of the same processes end in the same state. -/
theorem pass_perm {ps qs : List Process} (sound : ∀ p ∈ ps, p.Sound) (total : ∀ p ∈ ps, p.Total)
    (apart : Apart ps) (perm : qs.Perm ps) (hp : Scheduled ps) (hq : Scheduled qs)
    (ms : List MemoryState) (σ : SimState) : pass ms qs σ = pass ms ps σ := by
  have inside : ∀ {p : Process}, p ∈ qs → p ∈ ps := fun h => perm.mem_iff.mp h
  have first := pass_ok total ms σ
  have second := pass_ok (fun p h => total p (inside h)) ms σ
  have solved : Solved ms ps (pass ms ps σ).2 :=
    pass_solved sound apart hp (Prod.ext first rfl : pass ms ps σ = (.ok (), _))
  have solved' : Solved ms qs (pass ms qs σ).2 :=
    pass_solved (fun p h => sound p (inside h)) ((Apart.perm perm).mpr apart) hq
      (Prod.ext second rfl : pass ms qs σ = (.ok (), _))
  refine Prod.ext (second.trans first.symm) ((solved'.perm perm).unique sound hp solved ?_)
  intro s undriven
  rw [pass_undriven sound undriven,
    pass_undriven (fun p h => sound p (inside h)) fun h => undriven ((Driven.perm perm s).mp h)]

/-! ### Passes in which a signal may be driven twice -/

/-- Processes that find what they read give the same results from states that agree on what nobody
drives. -/
theorem pass_ready {driven done : Signal → Prop} {ps : List Process} (ready : Ready driven done ps)
    (sound : ∀ p ∈ ps, p.Sound) {σ τ σ' : SimState}
    (same : ∀ s, ¬ driven s ∨ done s → σ.get? s = τ.get? s) (h : pass ms ps σ = (.ok (), σ')) :
    ∃ τ', pass ms ps τ = (.ok (), τ') ∧
      ∀ s, ¬ driven s ∨ done s ∨ Driven ps s → σ'.get? s = τ'.get? s := by
  induction ps generalizing σ τ done with
  | nil =>
    cases h
    refine ⟨τ, rfl, fun s hs => same s ?_⟩
    rcases hs with undriven | before | ⟨p, hp, -⟩
    · exact .inl undriven
    · exact .inr before
    · exact absurd hp List.not_mem_nil
  | cons p ps ih =>
    obtain ⟨found, ready⟩ := ready
    have sound_p := sound p (by simp)
    have given : results ms τ p = results ms σ p := by
      refine results_congr sound_p fun s reads other => (value_congr (same s ?_)).symm
      by_cases hs : driven s
      · exact .inr ((found s reads hs).resolve_left other)
      · exact .inl hs
    rw [pass] at h
    rw [pass, given]
    cases hw : results ms σ p with
    | error e =>
      rw [hw] at h
      cases h
    | ok w =>
      simp only [hw] at h ⊢
      have agree : ∀ s, ¬ driven s ∨ (done s ∨ s ∈ p.outputs) →
          (σ.override w).get? s = (τ.override w).get? s := by
        intro s hs
        by_cases own : s ∈ p.outputs
        · rw [override_driven sound_p.owns hw own, override_driven sound_p.owns hw own]
        · rw [override_undriven sound_p.owns hw own, override_undriven sound_p.owns hw own]
          exact same s (hs.imp id fun h => h.resolve_right own)
      obtain ⟨τ', ended, final⟩ :=
        ih ready (fun q hq => sound q (List.mem_cons_of_mem _ hq)) agree h
      refine ⟨τ', ended, fun s hs => final s ?_⟩
      rcases hs with undriven | before | ⟨q, hq, drives⟩
      · exact .inl undriven
      · exact .inr (.inl (.inl before))
      · rcases List.mem_cons.mp hq with rfl | hq
        · exact .inr (.inl (.inr drives))
        · exact .inr (.inr ⟨q, hq, drives⟩)

/-- Where a pass ends depends only on the signals that nobody drives. -/
theorem pass_eq_of_undriven {ps : List Process} (ready : Ready (Driven ps) (fun _ => False) ps)
    (sound : ∀ p ∈ ps, p.Sound) {σ τ σ' : SimState}
    (same : ∀ s, ¬ Driven ps s → σ.get? s = τ.get? s) (h : pass ms ps σ = (.ok (), σ')) :
    pass ms ps τ = (.ok (), σ') := by
  obtain ⟨τ', ended, agree⟩ := pass_ready ready sound (fun s hs => same s (hs.resolve_right id)) h
  rw [ended]
  refine Prod.ext rfl (OrdMap.ext_get? fun s => (agree s ?_).symm)
  by_cases driven : Driven ps s
  · exact .inr (.inr driven)
  · exact .inl driven

/-- A second pass changes nothing. -/
theorem pass_idem {ps : List Process} (ready : Ready (Driven ps) (fun _ => False) ps)
    (sound : ∀ p ∈ ps, p.Sound) {σ σ' : SimState} (h : pass ms ps σ = (.ok (), σ')) :
    pass ms ps σ' = (.ok (), σ') := by
  refine pass_eq_of_undriven ready sound (fun s undriven => ?_) h
  have kept := pass_undriven sound undriven ms σ
  rw [h] at kept
  exact kept.symm

end Simulator

end Gateware
