import Gateware.Proofs.Ordered
import Gateware.Proofs.Runs
import Gateware.Simulation.Frame
import Gateware.Stmt.Sets

/-!
# How frames run

One equation for each statement and for each kind of target. A run only stores into the signals its
targets drive; the state it reads from stays as it is.
-/
namespace Gateware

theorem SimState.value_of_get? {σ : SimState} {s : Signal} {v : Int} (h : σ.get? s = some v) :
    σ.value s = v := by
  rw [value, OrdMap.getD, h]
  rfl

/-! ### Choices -/

namespace Expr

theorem choiceIndex_lt (k : Int) {n : Nat} (some : 0 < n) : choiceIndex k n < n := by
  rw [choiceIndex]
  split <;> omega

/-- A selector counts to one of the choices, if there is any. -/
theorem choice_cases (cs : List Expr) (k : Int) :
    cs = [] ∨ ∃ c ∈ cs, cs[choiceIndex k cs.length]? = some c := by
  rcases Nat.eq_zero_or_pos cs.length with none | some
  · exact .inl (List.eq_nil_of_length_eq_zero none)
  · have within := choiceIndex_lt k some
    exact .inr ⟨_, List.getElem_mem within, List.getElem?_eq_getElem within⟩

/-- What goes down a list of choices as a selector counts ends at the choice it counts to. -/
theorem choice_eq {α : Type} (pick : List Expr → Nat → α) (take : Expr → α)
    (here : ∀ c cs, pick (c :: cs) 0 = take c)
    (later : ∀ c cs i, pick (c :: cs) (i + 1) = pick cs i) {cs : List Expr} {i : Nat} {c : Expr}
    (found : cs[i]? = some c) : pick cs i = take c := by
  induction cs generalizing i with
  | nil => simp at found
  | cons d cs ih =>
    cases i with
    | zero =>
      cases found
      exact here _ cs
    | succ i => exact (later d cs i).trans (ih (by simpa using found))

theorem evalChoice_eq {ρ : Valuation} {cs : List Expr} {i : Nat} {c : Expr}
    (found : cs[i]? = some c) : evalChoice ρ cs i = c.eval ρ :=
  choice_eq (evalChoice ρ) (eval ρ) (fun _ _ => by rw [evalChoice])
    (fun _ _ _ => by rw [evalChoice]) found

end Expr

namespace Frame

/-- The frame once a signal is set. -/
def stored (f : Frame) (s : Signal) (v : Int) : Frame :=
  { f with writes := f.writes.insert s (s.shape.wrap v) }

@[simp] theorem stored_state (f : Frame) (s : Signal) (v : Int) : (f.stored s v).state = f.state :=
  rfl

@[simp] theorem stored_clocked (f : Frame) (s : Signal) (v : Int) :
    (f.stored s v).clocked = f.clocked := rfl

theorem stored_writes (f : Frame) (s t : Signal) (v : Int) :
    (f.stored s v).writes.get? t = if t = s then some (s.shape.wrap v) else f.writes.get? t :=
  OrdMap.get?_insert ..

theorem latest_stored (f : Frame) (s t : Signal) (v : Int) :
    (f.stored s v).latest t = if t = s then s.shape.wrap v else f.latest t := by
  simp only [latest, stored_writes, stored_state]
  split <;> rfl

theorem seen_blocking {f : Frame} (h : f.clocked = false) : f.seen = f.latest := by
  simp [seen, h]

theorem seen_clocked {f : Frame} (h : f.clocked = true) : f.seen = f.state.value := by
  simp [seen, h]

/-! ### Equations -/

theorem run_eval (e : Expr) (f : Frame) : (eval e).run.run f = (e.eval f.seen, f) := by
  simp only [eval, run_bind, run_get, run_lift]

theorem run_write_signal (s : Signal) (v : Int) (f : Frame) :
    (write (.signal s) v).run.run f = (.ok (), f.stored s v) := by
  rw [write]
  rfl

theorem run_write_slice (a : Expr) (start stop : Nat) (v : Int) (f : Frame) :
    (write (.slice a start stop) v).run.run f =
      match f.holds a with
      | .ok old => (write a (replaceField (toBits old a.width) (toBits v (stop - start)) a.width
          start stop)).run.run f
      | .error e => (.error e, f) := by
  simp only [write, run_bind, run_get, run_lift]
  cases f.holds a <;> rfl

theorem run_write_concat (ps : List Expr) (v : Int) (f : Frame) :
    (write (.concat ps) v).run.run f =
      (writeParts ps (toBits v (Expr.concat ps).width)).run.run f := by
  rw [write]

theorem run_write_mux (s : Expr) (cs : List Expr) (v : Int) (f : Frame) :
    (write (.mux s cs) v).run.run f =
      match s.eval f.seen with
      | .ok i => (writeChoice cs (choiceIndex i cs.length) v).run.run f
      | .error e => (.error e, f) := by
  simp only [write, run_bind, run_eval]
  cases s.eval f.seen <;> rfl

theorem run_writeParts_nil (bits : Nat) (f : Frame) :
    (writeParts [] bits).run.run f = (.ok (), f) := by
  rw [writeParts]
  rfl

theorem run_writeParts_cons (p : Expr) (ps : List Expr) (bits : Nat) (f : Frame) :
    (writeParts (p :: ps) bits).run.run f =
      match (write p (bits &&& mask p.width : Nat)).run.run f with
      | (.ok _, g) => (writeParts ps (bits >>> p.width)).run.run g
      | (.error e, g) => (.error e, g) := by
  simp only [writeParts, run_bind]
  rcases (write p (bits &&& mask p.width : Nat)).run.run f with ⟨e | u, g⟩ <;> rfl

theorem run_writeChoice_nil (i : Nat) (v : Int) (f : Frame) :
    (writeChoice [] i v).run.run f = (.ok (), f) := by
  rw [writeChoice]
  rfl

theorem holdsChoice_eq {f : Frame} {cs : List Expr} {i : Nat} {c : Expr} (found : cs[i]? = some c) :
    f.holdsChoice cs i = f.holds c :=
  Expr.choice_eq f.holdsChoice f.holds (fun _ _ => by rw [holdsChoice])
    (fun _ _ _ => by rw [holdsChoice]) found

theorem writeChoice_eq {cs : List Expr} {i : Nat} {c : Expr} (found : cs[i]? = some c) (v : Int) :
    writeChoice cs i v = write c v :=
  Expr.choice_eq (writeChoice · · v) (write · v) (fun _ _ => by rw [writeChoice])
    (fun _ _ _ => by rw [writeChoice]) found

theorem run_exec_assign (lhs rhs : Expr) (f : Frame) :
    (exec (.assign lhs rhs)).run.run f =
      match rhs.eval f.seen with
      | .ok v => (write lhs v).run.run f
      | .error e => (.error e, f) := by
  simp only [exec, run_bind, run_eval]
  cases rhs.eval f.seen <;> rfl

theorem run_exec_branch (cond : Expr) (yes no : List Stmt) (f : Frame) :
    (exec (.branch cond yes no)).run.run f =
      match cond.eval f.seen with
      | .ok v => (execAll (if v = 0 then no else yes)).run.run f
      | .error e => (.error e, f) := by
  simp only [exec, run_bind, run_eval]
  cases cond.eval f.seen with
  | error e => rfl
  | ok v => by_cases h : v = 0 <;> simp [h]

theorem run_exec_select (test : Expr) (arms : Arms) (f : Frame) :
    (exec (.select test arms)).run.run f =
      match test.eval f.seen with
      | .ok v => (execArms test.shape v arms).run.run f
      | .error e => (.error e, f) := by
  simp only [exec, run_bind, run_eval]
  cases test.eval f.seen <;> rfl

theorem run_execAll_nil (f : Frame) : (execAll []).run.run f = (.ok (), f) := by
  rw [execAll]
  rfl

theorem run_execAll_cons (s : Stmt) (ss : List Stmt) (f : Frame) :
    (execAll (s :: ss)).run.run f =
      match (exec s).run.run f with
      | (.ok _, g) => (execAll ss).run.run g
      | (.error e, g) => (.error e, g) := by
  simp only [execAll, run_bind]
  rcases (exec s).run.run f with ⟨e | u, g⟩ <;> rfl

theorem run_execAll_append (ss ts : List Stmt) (f : Frame) :
    (execAll (ss ++ ts)).run.run f =
      match (execAll ss).run.run f with
      | (.ok _, g) => (execAll ts).run.run g
      | (.error e, g) => (.error e, g) := by
  induction ss generalizing f with
  | nil => rw [List.nil_append, run_execAll_nil]
  | cons s ss ih =>
    rw [List.cons_append, run_execAll_cons, run_execAll_cons]
    rcases (exec s).run.run f with ⟨e | u, g⟩
    · rfl
    · exact ih g

theorem run_execAll_cons_ok {s : Stmt} {ss : List Stmt} {f h : Frame} :
    (execAll (s :: ss)).run.run f = (.ok (), h) ↔
      ∃ g, (exec s).run.run f = (.ok (), g) ∧ (execAll ss).run.run g = (.ok (), h) := by
  rw [run_execAll_cons]
  rcases (exec s).run.run f with ⟨e | u, g⟩
  · exact ⟨fun h => (nomatch h), fun ⟨_, h, _⟩ => (nomatch h)⟩
  · exact ⟨fun rest => ⟨g, rfl, rest⟩, fun ⟨_, same, rest⟩ => by cases same; exact rest⟩

theorem run_execAll_append_ok {ss ts : List Stmt} {f h : Frame} :
    (execAll (ss ++ ts)).run.run f = (.ok (), h) ↔
      ∃ g, (execAll ss).run.run f = (.ok (), g) ∧ (execAll ts).run.run g = (.ok (), h) := by
  rw [run_execAll_append]
  rcases (execAll ss).run.run f with ⟨e | u, g⟩
  · exact ⟨fun h => (nomatch h), fun ⟨_, h, _⟩ => (nomatch h)⟩
  · exact ⟨fun rest => ⟨g, rfl, rest⟩, fun ⟨_, same, rest⟩ => by cases same; exact rest⟩

theorem run_assign_signal_ok {s : Signal} {rhs : Expr} {f g : Frame} :
    (exec (.assign (.signal s) rhs)).run.run f = (.ok (), g) ↔
      ∃ v, rhs.eval f.seen = .ok v ∧ g = f.stored s v := by
  rw [run_exec_assign]
  cases rhs.eval f.seen with
  | error e => exact ⟨fun h => (nomatch h), fun ⟨_, h, _⟩ => (nomatch h)⟩
  | ok v =>
    simp only [run_write_signal, Except.ok.injEq, exists_eq_left']
    exact ⟨fun h => (congrArg Prod.snd h).symm, fun h => h ▸ rfl⟩

theorem run_execArms_done (shape : Shape) (v : Int) (f : Frame) :
    (execArms shape v .done).run.run f = (.ok (), f) := by
  rw [execArms]
  rfl

theorem execArms_otherwise (shape : Shape) (v : Int) (body : List Stmt) :
    execArms shape v (.otherwise body) = execAll body := by
  rw [execArms]

theorem execArms_arm (shape : Shape) (v : Int) (key : Literal) (body : List Stmt) (rest : Arms) :
    execArms shape v (.arm key body rest) =
      if shape.wrap key.value = v then execAll body else execArms shape v rest := by
  rw [execArms]

/-! ### What runs store into -/

/-- The second frame comes from the first by storing into signals of `D`. -/
inductive Stores (D : Signal → Prop) : Frame → Frame → Prop
  | refl (f : Frame) : Stores D f f
  | store {f g : Frame} (s : Signal) (v : Int) (driven : D s) (rest : Stores D (f.stored s v) g) :
    Stores D f g

namespace Stores

variable {D E : Signal → Prop} {f g h : Frame}

theorem trans (first : Stores D f g) (second : Stores D g h) : Stores D f h := by
  induction first with
  | refl => exact second
  | store s v driven _ ih => exact .store s v driven (ih second)

theorem mono (sub : ∀ s, D s → E s) (run : Stores D f g) : Stores E f g := by
  induction run with
  | refl => exact .refl _
  | store s v driven _ ih => exact .store s v (sub s driven) ih

theorem state_eq (run : Stores D f g) : g.state = f.state := by
  induction run with
  | refl => rfl
  | store _ _ _ _ ih => exact ih

theorem clocked_eq (run : Stores D f g) : g.clocked = f.clocked := by
  induction run with
  | refl => rfl
  | store _ _ _ _ ih => exact ih

/-- A signal that is not stored into keeps its write. -/
theorem writes_eq (run : Stores D f g) {s : Signal} (undriven : ¬ D s) :
    g.writes.get? s = f.writes.get? s := by
  induction run with
  | refl => rfl
  | store t v driven _ ih =>
    rw [ih, stored_writes, if_neg]
    rintro rfl
    exact undriven driven

theorem latest_eq (run : Stores D f g) {s : Signal} (undriven : ¬ D s) :
    g.latest s = f.latest s := by
  simp only [latest, run.writes_eq undriven, run.state_eq]

theorem keys_mono (run : Stores D f g) {s : Signal} (written : s ∈ f.writes.keys) :
    s ∈ g.writes.keys := by
  induction run with
  | refl => exact written
  | store t v _ _ ih => exact ih (OrdMap.mem_keys_insert.mpr (.inr written))

theorem mem_keys (run : Stores D f g) {s : Signal} (written : s ∈ g.writes.keys) :
    s ∈ f.writes.keys ∨ D s := by
  induction run with
  | refl => exact .inl written
  | store t v driven _ ih =>
    rcases ih written with earlier | later
    · rcases OrdMap.mem_keys_insert.mp earlier with rfl | earlier
      · exact .inr driven
      · exact .inl earlier
    · exact .inr later

end Stores

theorem writeParts_stores {D : Signal → Prop} {ps : List Expr}
    (each : ∀ p ∈ ps, ∀ (v : Int) (f : Frame), Stores D f ((write p v).run.run f).2) (bits : Nat)
    (f : Frame) : Stores D f ((writeParts ps bits).run.run f).2 := by
  induction ps generalizing bits f with
  | nil =>
    rw [run_writeParts_nil]
    exact .refl f
  | cons p ps ih =>
    obtain ⟨head, tail⟩ := List.forall_mem_cons.mp each
    have first := head (bits &&& mask p.width : Nat) f
    rw [run_writeParts_cons]
    generalize (write p (bits &&& mask p.width : Nat)).run.run f = ended at first ⊢
    rcases ended with ⟨e | u, g⟩
    · exact first
    · exact first.trans (ih tail _ g)

theorem write_stores (t : Expr) (v : Int) (f : Frame) :
    Stores (· ∈ t.drives) f ((write t v).run.run f).2 := by
  induction t generalizing v f with
  | signal s =>
    rw [run_write_signal]
    exact .store s v (.head _) (.refl _)
  | slice a start stop ih =>
    rw [run_write_slice]
    cases f.holds a with
    | error e => exact .refl f
    | ok old => exact ih _ f
  | concat ps ih =>
    rw [run_write_concat, Expr.drives, Expr.drivesOf_eq]
    exact writeParts_stores (fun p hp v f =>
      (ih p hp v f).mono fun s hs => List.mem_flatMap.mpr ⟨p, hp, hs⟩) _ f
  | mux s cs _ ih =>
    rw [run_write_mux, Expr.drives, Expr.drivesOf_eq]
    cases s.eval f.seen with
    | error e => exact .refl f
    | ok i =>
      rcases Expr.choice_cases cs i with rfl | ⟨c, hc, found⟩
      · exact .refl f
      · dsimp only
        rw [writeChoice_eq found]
        exact (ih c hc v f).mono fun s hs => List.mem_flatMap.mpr ⟨c, hc, hs⟩
  | literal | ref | unary | binary | replicate =>
    rw [write]
    exact .refl f

/-- The signals that a list of targets drives. -/
def DrivenBy (ts : List Expr) (s : Signal) : Prop := ∃ t ∈ ts, s ∈ t.drives

theorem DrivenBy.mono {ts us : List Expr} (sub : ts ⊆ us) (s : Signal) (h : DrivenBy ts s) :
    DrivenBy us s := by
  obtain ⟨t, ht, hs⟩ := h
  exact ⟨t, sub ht, hs⟩

mutual
theorem exec_stores (s : Stmt) (f : Frame) :
    Stores (DrivenBy s.targets) f ((exec s).run.run f).2 := by
  cases s with
  | assign lhs rhs =>
    rw [run_exec_assign]
    cases rhs.eval f.seen with
    | error e => exact .refl f
    | ok v => exact (write_stores lhs v f).mono fun s hs => ⟨lhs, by simp [Stmt.targets], hs⟩
  | branch cond yes no =>
    rw [run_exec_branch, Stmt.targets]
    cases cond.eval f.seen with
    | error e => exact .refl f
    | ok v =>
      by_cases h : v = 0
      · simp only [if_pos h]
        exact (execAll_stores no f).mono (DrivenBy.mono (List.subset_append_right _ _))
      · simp only [if_neg h]
        exact (execAll_stores yes f).mono (DrivenBy.mono (List.subset_append_left _ _))
  | select test arms =>
    rw [run_exec_select, Stmt.targets]
    cases test.eval f.seen with
    | error e => exact .refl f
    | ok v => exact execArms_stores test.shape v arms f
  | nextState s =>
    rw [exec]
    exact .refl f
  | nextValue t v =>
    rw [exec]
    exact .refl f

theorem execAll_stores (ss : List Stmt) (f : Frame) :
    Stores (DrivenBy (Stmt.targetsOf ss)) f ((execAll ss).run.run f).2 := by
  cases ss with
  | nil =>
    rw [run_execAll_nil]
    exact .refl f
  | cons s ss =>
    have first := (exec_stores s f).mono
      (DrivenBy.mono (List.subset_append_left s.targets (Stmt.targetsOf ss)))
    rw [run_execAll_cons, Stmt.targetsOf]
    generalize (exec s).run.run f = ended at first ⊢
    rcases ended with ⟨e | u, g⟩
    · exact first
    · exact first.trans ((execAll_stores ss g).mono
        (DrivenBy.mono (List.subset_append_right _ _)))

theorem execArms_stores (shape : Shape) (v : Int) (arms : Arms) (f : Frame) :
    Stores (DrivenBy (Stmt.targetsOfArms arms)) f ((execArms shape v arms).run.run f).2 := by
  cases arms with
  | done =>
    rw [run_execArms_done]
    exact .refl f
  | otherwise body =>
    rw [execArms_otherwise, Stmt.targetsOfArms]
    exact execAll_stores body f
  | arm key body rest =>
    rw [execArms_arm, Stmt.targetsOfArms]
    split
    · exact (execAll_stores body f).mono (DrivenBy.mono (List.subset_append_left _ _))
    · exact (execArms_stores shape v rest f).mono (DrivenBy.mono (List.subset_append_right _ _))
end

end Frame

end Gateware
