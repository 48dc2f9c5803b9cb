import Gateware.Proofs.Machine.Effect

/-!
# The selection over the states

While the state register shows a state's number, the selection runs that state's statements. The
reset state's statements stand in the body for unused codes, behind an assignment that also holds
there.
-/
namespace Gateware

namespace Frame

theorem execArms_ofList (shape : Shape) (v : Int) (arms : List (Literal × List Stmt))
    (body : List Stmt) :
    execArms shape v (.ofList arms (some body)) =
      match arms.find? fun a => shape.wrap a.1.value = v with
      | some a => execAll a.2
      | none => execAll body := by
  induction arms with
  | nil => exact execArms_otherwise shape v body
  | cons a arms ih =>
    change execArms shape v (.arm a.1 a.2 (.ofList arms (some body))) = _
    rw [execArms_arm, ih]
    by_cases equal : shape.wrap a.1.value = v
    · rw [if_pos equal, List.find?_cons_of_pos (by simpa using equal)]
    · rw [if_neg equal, List.find?_cons_of_neg (by simpa using equal)]

end Frame

theorem Stmt.targetsOfArms_ofList (arms : List (Literal × List Stmt)) (body : List Stmt) :
    targetsOfArms (.ofList arms (some body)) =
      arms.flatMap (fun a => targetsOf a.2) ++ targetsOf body := by
  induction arms with
  | nil => rfl
  | cons a arms ih =>
    change targetsOf a.2 ++ targetsOfArms (.ofList arms (some body)) = _
    rw [ih, List.flatMap_cons, List.append_assoc]

theorem Stmt.exprsOfArms_ofList (arms : List (Literal × List Stmt)) (body : List Stmt) :
    exprsOfArms (.ofList arms (some body)) =
      arms.flatMap (fun a => exprsOf a.2) ++ exprsOf body := by
  induction arms with
  | nil => rfl
  | cons a arms ih =>
    change exprsOf a.2 ++ exprsOfArms (.ofList arms (some body)) = _
    rw [ih, List.flatMap_cons, List.append_assoc]

theorem find?_eq_some_of_unique {α : Type} {xs : List α} {q : α → Bool} {a : α} (ha : a ∈ xs)
    (holds : q a = true) (unique : ∀ b ∈ xs, q b = true → b = a) : xs.find? q = some a := by
  cases found : xs.find? q with
  | none => exact absurd holds (List.find?_eq_none.mp found a ha)
  | some b => rw [unique b (List.mem_of_find?_eq_some found) (List.find?_some found)]

theorem filter_eq_singleton {α : Type} {xs : List α} (nodup : xs.Nodup) {q : α → Bool} {a : α}
    (ha : a ∈ xs) (holds : q a = true) (unique : ∀ b ∈ xs, q b = true → b = a) :
    xs.filter q = [a] := by
  refine List.perm_singleton.mp ((List.perm_ext_iff_of_nodup (nodup.filter q)
    (List.nodup_singleton a)).mpr fun b => ?_)
  rw [List.mem_filter, List.mem_singleton]
  exact ⟨fun h => unique b h.1 h.2, fun h => h ▸ ⟨ha, holds⟩⟩

namespace Machine

open Gateware.Stmt Gateware.Frame

/-- A machine put together by its operations. -/
inductive Made : Machine → Prop
  | new {m : Machine} (empty : m.bodies = []) : Made m
  | act {m : Machine} (state : String) (ss : List Stmt) (made : Made m) : Made (m.act state ss)
  | delayed {m : Machine} (state target : String) (delay : Nat) (made : Made m) :
    Made (m.delayed state target delay)
  | ongoing {m : Machine} (state : String) (u : Supply) (made : Made m) :
    Made ((m.ongoing state).run u).1.2
  | watch {m : Machine} (event : Event) (state : String) (u : Supply) (made : Made m) :
    Made ((m.watch event state).run u).1.2

theorem nodup_declare {m : Machine} (distinct : m.states.Nodup) (state : String) :
    (m.declare state).states.Nodup := by
  rw [declare]
  split
  · exact distinct
  next absent =>
    rw [states, List.map_append]
    refine List.nodup_append.mpr ⟨distinct, List.nodup_singleton _, fun a ha b hb same => ?_⟩
    rw [same, List.mem_singleton.mp hb] at ha
    exact absent ha

theorem states_act (m : Machine) (state : String) (ss : List Stmt) :
    (m.act state ss).states = (m.declare state).states := by
  rw [act, states, states, List.map_map]
  refine List.map_congr_left fun b _ => ?_
  simp only [Function.comp_apply]
  split <;> rfl

theorem nodup_passage {m : Machine} (distinct : m.states.Nodup) (state target : String)
    (between : Nat) : (m.passage state target between).states.Nodup := by
  induction between generalizing m state with
  | zero =>
    rw [passage, states_act]
    exact nodup_declare distinct state
  | succ between ih =>
    refine ih ?_ _
    rw [states_act]
    refine nodup_declare ?_ state
    exact distinct

/-- No operation declares a state twice. -/
theorem Made.distinct {m : Machine} (made : Made m) : m.states.Nodup := by
  induction made with
  | new empty =>
    rw [states, empty]
    exact List.nodup_nil
  | act state ss _ ih =>
    rw [states_act]
    exact nodup_declare ih state
  | delayed state target delay _ ih =>
    cases delay with
    | zero => exact ih
    | succ delay => exact nodup_passage ih state target delay
  | @ongoing m state u _ ih =>
    change (m.act state _).states.Nodup
    rw [states_act]
    exact nodup_declare ih state
  | @watch m event state u _ ih =>
    have declared := nodup_declare ih state
    rw [Machine.watch]
    cases ((m.declare state).events event).get? state <;> exact declared

/-- A state's number is its place. -/
theorem code?_of_place {m : Machine} (distinct : m.states.Nodup) {k : Nat} {s : String}
    (place : m.states[k]? = some s) : m.code? s = some k := by
  obtain ⟨inside, rfl⟩ := List.getElem?_eq_some_iff.mp place
  refine List.findIdx?_eq_some_iff_getElem.mpr ⟨inside, by simp, fun j hj => ?_⟩
  have other := (List.pairwise_iff_getElem.mp distinct) j k (hj.trans inside) inside hj
  simpa using other

theorem code?_lt {m : Machine} {s : String} {k : Nat} (h : m.code? s = some k) :
    k < m.bodies.length := by
  obtain ⟨inside, -⟩ := List.findIdx?_eq_some_iff_getElem.mp h
  simpa [states] using inside

/-- Numbers of states fit the state register. -/
theorem wrap_code {m : Machine} {k : Nat} (h : k < m.bodies.length) : m.shape.wrap k = k :=
  Shape.wrap_unsigned_of_lt (lt_two_pow_bitsFor (by omega))

/-- Every state's statements stand in an arm or in the body for unused codes. -/
theorem Parts.exists_arms (m : Machine) (p : Parts) :
    ∃ arms rest, p.selection m = [.assign p.nextState p.state, .select p.state
        (.ofList arms (some (.assign p.nextState (m.coded p.reset.2) :: rest)))] ∧
      ∀ b ∈ p.bodies, (∃ a ∈ arms, a.2 = b.2) ∨ b.2 ⊆ rest := by
  refine ⟨_, _, rfl, fun b hb => ?_⟩
  obtain ⟨i, inside, rfl⟩ := List.mem_iff_getElem.mp hb
  have listed : (p.bodies[i], i) ∈ p.bodies.zipIdx :=
    List.mem_zipIdx_iff_getElem?.mpr (List.getElem?_eq_getElem inside)
  by_cases own : p.bodies[i].1 = p.reset.1
  · exact .inr fun u hu => List.mem_flatMap.mpr
      ⟨_, List.mem_filter.mpr ⟨listed, decide_eq_true own⟩, hu⟩
  · exact .inl ⟨_, List.mem_map.mpr
      ⟨_, List.mem_filter.mpr ⟨listed, decide_eq_true own⟩, rfl⟩, rfl⟩

/-- Both statements of the selection drive the next state. -/
theorem Parts.exists_choice (m : Machine) (p : Parts) :
    ∃ choice, p.selection m = [.assign p.nextState p.state, choice] ∧
      p.nextState ∈ assigned [choice] := by
  obtain ⟨arms, rest, selection, -⟩ := p.exists_arms m
  refine ⟨_, selection, drivenBy_iff.mp ⟨.signal p.nextState, ?_, .head _⟩⟩
  rw [targetsOf, targets, targetsOfArms_ofList]
  exact List.mem_append_left _ (List.mem_append_right _ (.head _))

/-- The selection drives what the states drive, and holds all their values. -/
theorem Parts.selection_covers {m : Machine} {p : Parts} {b : String × List Stmt}
    (hb : b ∈ p.bodies) :
    targetsOf b.2 ⊆ targetsOf (p.selection m) ∧ exprsOf b.2 ⊆ exprsOf (p.selection m) := by
  obtain ⟨arms, rest, selection, placed⟩ := p.exists_arms m
  rw [selection]
  refine ⟨fun t ht => List.mem_append_right _ (List.mem_append_left [] ?_),
    fun e he => List.mem_append_right _ (List.mem_append_left [] (.tail _ ?_))⟩
  · rw [targets, targetsOfArms_ofList]
    rcases placed b hb with ⟨a, ha, same⟩ | sub
    · exact List.mem_append_left _ (List.mem_flatMap.mpr ⟨a, ha, same ▸ ht⟩)
    · exact List.mem_append_right _ (.tail _ (Simulator.mem_targetsOf_of_subset sub ht))
  · rw [exprsOfArms_ofList]
    rcases placed b hb with ⟨a, ha, same⟩ | sub
    · exact List.mem_append_left _ (List.mem_flatMap.mpr ⟨a, ha, same ▸ he⟩)
    · exact List.mem_append_right _ (.tail _ (.tail _ (Simulator.mem_exprsOf_of_subset sub he)))

namespace Parts.Built

variable {m : Machine} {supply : Supply} {p : Parts} (built : p.Built m supply)
include built

theorem initial_code : m.code? p.reset.1 = some p.reset.2 := by
  have initial := built.initial
  rw [Machine.initial] at initial
  split at initial
  case h_3 => cases initial
  -- Given or not, the reset state is one that has a number.
  all_goals
    obtain ⟨state, -, found⟩ := bind_eq_ok.mp initial
    dsimp only at found
    split at found
    next code known =>
      rw [← Except.ok.inj found]
      exact known
    next => cases found

theorem bodies_spec : List.Forall₂ (fun b b' => b'.1 = b.1 ∧
    replaceOf (m.plain p.nextState p.loads) b.2 = .ok b'.2) m.bodies p.bodies := by
  refine (mapM_ok_iff.mp built.plain).imp fun b b' h => ?_
  obtain ⟨ts, rewrites, same⟩ := bind_eq_ok.mp h
  cases same
  exact ⟨rfl, rewrites⟩

theorem body_at {k : Nat} {s : String} {body : List Stmt} (place : m.bodies[k]? = some (s, body)) :
    ∃ ts, p.bodies[k]? = some (s, ts) ∧
      replaceOf (m.plain p.nextState p.loads) body = .ok ts := by
  obtain ⟨inside, here⟩ := List.getElem?_eq_some_iff.mp place
  have inside' := built.bodies_spec.length_eq ▸ inside
  have fits := List.forall₂_iff_get.mp built.bodies_spec |>.2 k inside inside'
  simp only [List.get_eq_getElem, here] at fits
  exact ⟨p.bodies[k].2, List.getElem?_eq_some_iff.mpr ⟨inside', Prod.ext fits.1 rfl⟩, fits.2⟩

theorem states_eq : p.bodies.map (·.1) = m.states := by
  have same := built.bodies_spec
  rw [states]
  generalize m.bodies = bs, p.bodies = ps at same
  induction same with
  | nil => rfl
  | cons fits _ ih => rw [List.map_cons, List.map_cons, ih, fits.1]

theorem code?_of_body (distinct : m.states.Nodup) {k : Nat} {s : String} {ts : List Stmt}
    (place : p.bodies[k]? = some (s, ts)) : m.code? s = some k := by
  refine code?_of_place distinct ?_
  rw [← built.states_eq, List.getElem?_map, place]
  rfl

/-- The arm of a state is taken at its own number only. -/
theorem key_iff {b : String × List Stmt} {i : Nat} (hb : (b, i) ∈ p.bodies.zipIdx) (k : Nat) :
    p.state.shape.wrap (Literal.sized i m.shape).value = k ↔ i = k := by
  have inside : i < m.bodies.length := by
    rw [built.bodies_spec.length_eq]
    exact (List.getElem?_eq_some_iff.mp (List.mem_zipIdx_iff_getElem?.mp hb)).1
  change p.state.shape.wrap (m.shape.wrap i) = k ↔ i = k
  rw [built.stateShape, Shape.wrap_wrap, wrap_code inside]
  omega

/-- The arms of the states other than the reset state. -/
theorem find_arm {k : Nat} {s : String} {ts : List Stmt} (place : p.bodies[k]? = some (s, ts)) :
    (((p.bodies.zipIdx.filter fun x => x.1.1 ≠ p.reset.1).map fun x =>
        (Literal.sized x.2 m.shape, x.1.2)).find? fun a => p.state.shape.wrap a.1.value = k) =
      if s = p.reset.1 then none else some (.sized k m.shape, ts) := by
  have listed : ((s, ts), k) ∈ p.bodies.zipIdx := List.mem_zipIdx_iff_getElem?.mpr place
  have only : ∀ b i, (b, i) ∈ p.bodies.zipIdx → i = k → b = (s, ts) := by
    rintro b i hb rfl
    exact Option.some.inj ((List.mem_zipIdx_iff_getElem?.mp hb).symm.trans place)
  split
  next own =>
    refine List.find?_eq_none.mpr fun a ha taken => ?_
    obtain ⟨⟨b, i⟩, hb, rfl⟩ := List.mem_map.mp ha
    obtain ⟨hb, other⟩ := List.mem_filter.mp hb
    have same := only b i hb ((built.key_iff hb k).mp (of_decide_eq_true taken))
    exact of_decide_eq_true other (by rw [same, own])
  next other =>
    refine find?_eq_some_of_unique ?_ ?_ fun a ha taken => ?_
    · exact List.mem_map.mpr ⟨((s, ts), k), List.mem_filter.mpr ⟨listed, decide_eq_true other⟩, rfl⟩
    · exact decide_eq_true ((built.key_iff listed k).mpr rfl)
    · obtain ⟨⟨b, i⟩, hb, rfl⟩ := List.mem_map.mp ha
      have hb := (List.mem_filter.mp hb).1
      have number := (built.key_iff hb k).mp (of_decide_eq_true taken)
      rw [only b i hb number, number]

/-- The reset state's statements are those of the body for unused codes. -/
theorem own_body (distinct : m.states.Nodup) {k : Nat} {s : String} {ts : List Stmt}
    (place : p.bodies[k]? = some (s, ts)) (own : s = p.reset.1) :
    (p.bodies.zipIdx.filter fun x => x.1.1 = p.reset.1).flatMap (·.1.2) = ts := by
  have listed : ((s, ts), k) ∈ p.bodies.zipIdx := List.mem_zipIdx_iff_getElem?.mpr place
  have names : (p.bodies.map (·.1)).Nodup := built.states_eq ▸ distinct
  have alone : (p.bodies.zipIdx.filter fun x => x.1.1 = p.reset.1) = [((s, ts), k)] := by
    refine filter_eq_singleton ?_ listed (decide_eq_true own) ?_
    · exact List.Nodup.of_map Prod.fst ((List.zipIdx_map_fst 0 p.bodies).symm ▸ names.of_map _)
    · rintro ⟨b, i⟩ hb same
      have name : b.1 = s := (of_decide_eq_true same).trans own.symm
      have here : p.bodies[i]? = some b := List.mem_zipIdx_iff_getElem?.mp hb
      have inside : i < (p.bodies.map (·.1)).length := by
        rw [List.length_map]
        exact (List.getElem?_eq_some_iff.mp here).1
      obtain rfl : i = k := (List.getElem?_inj inside names).mp (by
        rw [List.getElem?_map, List.getElem?_map, here, place]
        exact congrArg some name)
      rw [Option.some.inj (here.symm.trans place)]
  rw [alone]
  exact List.append_nil ts

/-- While the state register shows a state's number, the selection runs that state's statements
with the next state set to the same number. -/
theorem run_selection (distinct : m.states.Nodup) {k : Nat} {s : String} {ts : List Stmt}
    (place : p.bodies[k]? = some (s, ts)) {f : Frame} (shows : f.seen p.state = k) :
    ∃ f', Stores (· = p.nextState) f f' ∧ f'.latest p.nextState = k ∧
      (execAll (p.selection m)).run.run f = (execAll ts).run.run f' := by
  have inside : k < m.bodies.length := by
    rw [built.bodies_spec.length_eq]
    exact (List.getElem?_eq_some_iff.mp place).1
  -- First the next state is what the register shows.
  let f₁ := f.stored p.nextState k
  have first : (exec (.assign p.nextState p.state)).run.run f = (.ok (), f₁) :=
    run_assign_signal_ok.mpr ⟨k, congrArg Except.ok shows, rfl⟩
  have stores : Stores (· = p.nextState) f f₁ := .store _ _ rfl (.refl _)
  have shows₁ : (Expr.signal p.state).eval f₁.seen = .ok (k : Int) :=
    congrArg Except.ok ((stores.seen_eq built.state_ne.1).trans shows)
  have value₁ : f₁.latest p.nextState = k := by
    rw [latest_stored, if_pos rfl, built.nextShape, wrap_code inside]
  rw [selection, Machine.selection, run_execAll_cons]
  simp only [first]
  rw [run_execAll_singleton, run_exec_select]
  simp only [shows₁]
  rw [execArms_ofList, show (Expr.signal p.state).shape = p.state.shape from rfl,
    built.find_arm place]
  split
  next a taken =>
    split at taken
    · cases taken
    · cases taken
      exact ⟨f₁, stores, value₁, rfl⟩
  next unused =>
    split at unused
    next own =>
      -- The body for unused codes sets the number once more.
      have known := built.code?_of_body distinct place
      rw [own, built.initial_code] at known
      obtain rfl := Option.some.inj known
      let f₂ := f₁.stored p.nextState p.reset.2
      have again : (exec (.assign p.nextState (m.coded p.reset.2))).run.run f₁ = (.ok (), f₂) := by
        refine run_assign_signal_ok.mpr ⟨p.reset.2, ?_, rfl⟩
        change Except.ok (m.shape.wrap (m.shape.wrap p.reset.2)) = _
        rw [Shape.wrap_wrap, wrap_code inside]
      refine ⟨f₂, stores.trans (.store _ _ rfl (.refl _)), ?_, ?_⟩
      · rw [latest_stored, if_pos rfl, built.nextShape, wrap_code inside]
      · rw [run_execAll_cons, built.own_body distinct place own]
        simp only [again]
    · cases unused

end Parts.Built

end Machine

end Gateware
