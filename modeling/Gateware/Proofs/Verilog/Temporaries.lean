import Gateware.Proofs.Lockstep
import Gateware.Proofs.Runs
import Gateware.Verilog.Cell

/-!
# What printing adds

Printing an expression, a statement or a block of statements changes the printer in one way only: it
gets more temporaries. Initial words of a memory may add a file. So whatever a new temporary and a
new file keep is kept by everything that is printed between two requests for a name. Printing can
also stop.

## Main results

* `OnlyAdds.bind`, `OnlyAdds.emit_bind`: steps one after the other.
* `onlyAdds_hoistAs`, `onlyAdds_selectText`: a temporary, and the bits of something named.
-/
namespace Gateware.Verilog

variable {T : Prop} {α β γ : Type}

/-- The printer with one more temporary. -/
def Printer.hoist (p : Printer) (e : Expr) (text : String) : Printer :=
  let name := p.used.free "_tmp"
  { p with
    used := p.used.insert name
    hoisted := (e, name) :: p.hoisted
    temps := p.temps ++ [⟨name, e.shape, text⟩] }

/-- The second printer comes from the first by adding temporaries and files, and by stopping only if
`T`. -/
inductive Adds (T : Prop) : Printer → Printer → Prop
  | refl (p : Printer) : Adds T p p
  | temp {p q : Printer} (e : Expr) (text : String) (rest : Adds T (p.hoist e text) q) : Adds T p q
  | file {p q : Printer} (f : DataFile) (rest : Adds T { p with files := p.files ++ [f] } q) :
    Adds T p q
  | stop {p q : Printer} (may : T) (rest : Adds T { p with overflow := true } q) : Adds T p q

theorem Adds.trans {p q r : Printer} (first : Adds T p q) (second : Adds T q r) : Adds T p r := by
  induction first with
  | refl => exact second
  | temp e text _ ih => exact .temp e text (ih second)
  | file f _ ih => exact .file f (ih second)
  | stop may _ ih => exact .stop may (ih second)

/-- The step adds temporaries and files and does nothing else, unless it stops, as it may if `T`. -/
def OnlyAdds (T : Prop) (x : Print α) : Prop := ∀ p, Adds T p (x.run p).2

/-! ### Sequencing -/

namespace OnlyAdds

theorem pure (a : α) : OnlyAdds T (pure a) := fun p => .refl p

theorem bind {x : Print α} {k : α → Print β} (first : OnlyAdds T x) (rest : ∀ a, OnlyAdds T (k a)) :
    OnlyAdds T (x >>= k) := fun p => (first p).trans (rest (x.run p).1 (x.run p).2)

theorem get_bind {k : Printer → Print α} (rest : ∀ p, Adds T p ((k p).run p).2) :
    OnlyAdds T (get >>= k) := rest

theorem map {x : Print α} (f : α → β) (h : OnlyAdds T x) : OnlyAdds T (f <$> x) := h

theorem ite {c : Prop} [Decidable c] {x y : Print α} (yes : OnlyAdds T x) (no : OnlyAdds T y) :
    OnlyAdds T (if c then x else y) := by
  split
  · exact yes
  · exact no

theorem mapM {f : γ → Print α} (xs : List γ) (each : ∀ x ∈ xs, OnlyAdds T (f x)) :
    OnlyAdds T (xs.mapM f) :=
  mapM_related (fun _ x _ => OnlyAdds T x) pure bind (g := id) (h := id) (List.map_id xs).symm
    (f := f) (j := f) each

end OnlyAdds

/-! ### Expressions -/

theorem onlyAdds_nameOf (s : Signal) : OnlyAdds T (nameOf s) := fun p => .refl p

theorem onlyAdds_watch {below : Bool} (may : below = true → T) : OnlyAdds T (watch below) := by
  intro p
  cases below with
  | true =>
    have stopped : ((watch true).run p).2 = { p with overflow := true } :=
      congrArg (fun o => { p with overflow := o }) (Bool.or_true _)
    rw [stopped]
    exact .stop (may rfl) (.refl _)
  | false =>
    have same : ((watch false).run p).2 = p :=
      congrArg (fun o => { p with overflow := o }) (Bool.or_false _)
    rw [same]
    exact .refl p

theorem onlyAdds_selectText (base : String) (width : Nat) {start stop : Nat}
    (some : start < stop ∨ T) : OnlyAdds T (selectText base width start stop) := by
  refine .ite (.pure _) ((onlyAdds_watch fun below => ?_).bind fun _ =>
    .ite (.pure _) ((onlyAdds_watch fun below => ?_).bind fun _ => .pure _))
  all_goals
    have below := of_decide_eq_true below
    exact some.resolve_left (by omega)

theorem onlyAdds_hoistAs (e : Expr) {x : Print String} (text : OnlyAdds T x) :
    OnlyAdds T (hoistAs e x) := by
  refine .get_bind fun p => ?_
  cases p.hoisted.lookup e with
  | some name => exact .refl p
  | none =>
    -- the text is printed first, so its own temporaries are older
    exact (text p).trans (.temp e (x.run p).1 (.refl _))

/-! ### Steps that may fail -/

namespace OnlyAdds

theorem emit_pure (a : α) : OnlyAdds T (Pure.pure a : Emit α).run := fun p => .refl p

theorem emit_lift {x : Print α} (h : OnlyAdds T x) : OnlyAdds T (liftM x : Emit α).run := h

theorem emit_except (x : Except Fault α) : OnlyAdds T (liftM x : Emit α).run := fun p => .refl p

theorem emit_bind {x : Emit α} {k : α → Emit β} (first : OnlyAdds T x.run)
    (rest : ∀ a, OnlyAdds T (k a).run) : OnlyAdds T (x >>= k).run := by
  intro p
  have started := first p
  rw [run_bind]
  rcases ended : x.run.run p with ⟨fault | a, q⟩
  · rwa [ended] at started
  · rw [ended] at started
    exact started.trans (rest a q)

theorem emit_mapM {f : γ → Emit α} (xs : List γ) (each : ∀ x ∈ xs, OnlyAdds T (f x).run) :
    OnlyAdds T (xs.mapM f).run :=
  mapM_related (fun _ x _ => OnlyAdds T x.run) emit_pure emit_bind (g := id) (h := id)
    (List.map_id xs).symm (f := f) (j := f) each

end OnlyAdds

end Gateware.Verilog
