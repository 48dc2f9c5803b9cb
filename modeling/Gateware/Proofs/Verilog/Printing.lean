import Gateware.Proofs.Folding.Invariants
import Gateware.Proofs.Renumbering.Netlist
import Gateware.Proofs.Verilog.Temporaries

/-!
# What printing looks at

Printing reads the number of a signal for two purposes only: to look up the signal's name, and to
find the temporary of an expression that was printed before. Two printers that call the signals of a
set the same, up to new numbers, print the same text for everything that mentions no other signal.
What is printed without taking a name only adds to the printer, and does not stop where no slice is
empty.

## Main results

* `prints_print`, `prints_statements`, `prints_clockedBlock`: values, statements and the block of a
  clock domain.
* `sameEmit_cellText`: cells, which may also fail, and then fail alike.

## Proof strategy

Printing goes in lockstep on alike printers, with the same result (`SameText`), so every printing
function is followed line by line, once for both properties (`Prints`). The set of signals is a
parameter. For the text of a renumbered design it is the set of all signals; for the names that are
used it is the set of signals that have one.
-/
namespace Gateware.Verilog

open Lockstep (OrFail)

/-- Printers that differ in the numbers of signals only, and call the signals of `S` the same. -/
structure Alike (S : Signal → Prop) (r : Numbering) (p q : Printer) : Prop where
  names : ∀ s, S s → q.names.name (s.renumber r) = p.names.name s
  used : q.used = p.used
  hoisted : q.hoisted = p.hoisted.map fun h => (h.1.renumber r, h.2)
  temps : q.temps = p.temps
  files : q.files = p.files
  overflow : q.overflow = p.overflow

/-- Steps with the same result on alike printers, which stay alike. -/
def SameText {α : Type} (S : Signal → Prop) (r : Numbering) (x y : Print α) : Prop :=
  Lockstep (Alike S r) id x y

variable {T : Prop} {S : Signal → Prop} {r : Numbering} {α β γ : Type}

/-! ### Sequencing -/

namespace SameText

theorem pure (a : α) : SameText S r (pure a) (pure a) := Lockstep.pure a

theorem bind {x y : Print α} {k l : α → Print β} (first : SameText S r x y)
    (rest : ∀ a, SameText S r (k a) (l a)) : SameText S r (x >>= k) (y >>= l) :=
  Lockstep.bind first rest

theorem get_bind {k l : Printer → Print α}
    (rest : ∀ p q, Alike S r p q → SameText S r (k p) (l q)) :
    SameText S r (get >>= k) (get >>= l) := fun p q alike => rest p q alike p q alike

theorem modify {f g : Printer → Printer} (keeps : ∀ p q, Alike S r p q → Alike S r (f p) (g q)) :
    SameText S r (modify f) (modify g) := fun p q alike => ⟨rfl, keeps p q alike⟩

theorem ite {c : Prop} [Decidable c] {x y x' y' : Print α} (yes : SameText S r x y)
    (no : SameText S r x' y') : SameText S r (if c then x else x') (if c then y else y') := by
  split
  · exact yes
  · exact no

theorem mapM {f : γ → Print α} {f' : β → Print α} {g : γ → β} (xs : List γ)
    (each : ∀ x ∈ xs, SameText S r (f x) (f' (g x))) :
    SameText S r (xs.mapM f) ((xs.map g).mapM f') := by
  have list := Lockstep.mapM rfl each
  rwa [List.map_id_fun] at list

end SameText

/-- Steps with the same result on alike printers, to which they only add, stopping only if `T`. -/
structure Prints (T : Prop) (S : Signal → Prop) (r : Numbering) (x y : Print α) : Prop where
  same : SameText S r x y
  adds : OnlyAdds T x

namespace Prints

theorem pure (a : α) : Prints T S r (pure a) (pure a) := ⟨.pure a, .pure a⟩

theorem bind {x y : Print α} {k l : α → Print β} (first : Prints T S r x y)
    (rest : ∀ a, Prints T S r (k a) (l a)) : Prints T S r (x >>= k) (y >>= l) :=
  ⟨first.same.bind fun a => (rest a).same, first.adds.bind fun a => (rest a).adds⟩

theorem map {x y : Print α} (f : α → β) (h : Prints T S r x y) :
    Prints T S r (f <$> x) (f <$> y) :=
  ⟨Lockstep.map h.same fun _ => rfl, h.adds.map f⟩

theorem ite {c : Prop} [Decidable c] {x y x' y' : Print α} (yes : Prints T S r x y)
    (no : Prints T S r x' y') : Prints T S r (if c then x else x') (if c then y else y') :=
  ⟨.ite yes.same no.same, .ite yes.adds no.adds⟩

theorem mapM {f : γ → Print α} {f' : β → Print α} {g : γ → β} (xs : List γ)
    (each : ∀ x ∈ xs, Prints T S r (f x) (f' (g x))) :
    Prints T S r (xs.mapM f) ((xs.map g).mapM f') :=
  ⟨.mapM xs fun x hx => (each x hx).same, .mapM xs fun x hx => (each x hx).adds⟩

end Prints

/-! ### Names and temporaries -/

theorem prints_nameOf {s : Signal} (hs : S s) :
    Prints T S r (nameOf s) (nameOf (s.renumber r)) :=
  ⟨fun _ _ alike => ⟨alike.names s hs, alike⟩, onlyAdds_nameOf s⟩

theorem sameText_watch (below : Bool) : SameText S r (watch below) (watch below) :=
  .modify fun _ _ alike => { alike with overflow := congrArg (· || below) alike.overflow }

theorem prints_watch {below : Bool} (may : below = true → T) :
    Prints T S r (watch below) (watch below) := ⟨sameText_watch below, onlyAdds_watch may⟩

theorem prints_selectText (base : String) (width : Nat) {start stop : Nat}
    (some : start < stop ∨ T) :
    Prints T S r (selectText base width start stop) (selectText base width start stop) where
  same := .ite (.pure _) ((sameText_watch _).bind fun _ =>
    .ite (.pure _) ((sameText_watch _).bind fun _ => .pure _))
  adds := onlyAdds_selectText base width some

theorem sameText_claim (hint : String) : SameText S r (claim hint) (claim hint) := by
  intro p q alike
  have name : q.used.free hint = p.used.free hint := by rw [alike.used]
  refine ⟨name, { alike with used := ?_ }⟩
  change q.used.insert (q.used.free hint) = p.used.insert (p.used.free hint)
  rw [alike.used]

theorem lookup_renumber [r.Increasing] (hoisted : List (Expr × String)) (e : Expr) :
    (hoisted.map fun h => (h.1.renumber r, h.2)).lookup (e.renumber r) = hoisted.lookup e := by
  induction hoisted with
  | nil => rfl
  | cons h hoisted ih =>
    rw [List.map_cons, List.lookup_cons, List.lookup_cons, ih]
    simp only [beq_eq_decide, Expr.renumber_injective.eq_iff]

theorem prints_hoistAs [r.Increasing] (e : Expr) {x y : Print String} (text : Prints T S r x y) :
    Prints T S r (hoistAs e x) (hoistAs (e.renumber r) y) := by
  refine ⟨.get_bind fun p q alike => ?_, onlyAdds_hoistAs e text.adds⟩
  rw [alike.hoisted, lookup_renumber]
  cases p.hoisted.lookup e with
  | some name => exact .pure name
  | none =>
    refine text.same.bind fun t => (sameText_claim "_tmp").bind fun name => ?_
    refine SameText.bind (.modify fun p q alike => ?_) fun _ => .pure name
    exact { alike with
      hoisted := by rw [alike.hoisted, List.map_cons]
      temps := by rw [alike.temps, Expr.shape_renumber] }

/-! ### Expressions -/

@[simp] theorem isWrappingSub_renumber (e : Expr) :
    isWrappingSub (e.renumber r) = isWrappingSub e := by
  cases e with
  | binary op a b =>
    cases op with
    | sub => exact congrArg (!·.signed) (Expr.shape_renumber (.binary .sub a b))
    | _ => rfl
  | _ => rfl

@[simp] theorem losesBits_renumber (e : Expr) : losesBits (e.renumber r) = losesBits e := by
  induction e with
  | literal | signal | ref | slice | concat | replicate => rfl
  | unary _ _ ih => rw [Expr.renumber, losesBits, losesBits, ih]
  | binary op _ _ ia ib => cases op <;> simp only [Expr.renumber, losesBits, ia, ib]
  | mux _ cs _ ih =>
    simp only [Expr.renumber, losesBits, anyLosesBits_eq, Expr.renumberAll_eq, List.map_map,
      Function.comp_def, List.map_congr_left ih]

section Operands

variable [r.Increasing] (e a b : Expr) {x y xa ya xb yb : Print String} (text : Prints T S r x y)
  (left : Prints T S r xa ya) (right : Prints T S r xb yb)

include text

theorem prints_inContext : Prints T S r (inContext e x) (inContext (e.renumber r) y) := by
  rw [inContext, inContext, isWrappingSub_renumber]
  exact .ite (prints_hoistAs e text) text

theorem prints_byItself : Prints T S r (byItself e x) (byItself (e.renumber r) y) := by
  rw [byItself, byItself, losesBits_renumber]
  exact .ite (prints_hoistAs e text) (prints_inContext e text)

theorem prints_side (cast alone : Bool) :
    Prints T S r (side e x cast alone) (side (e.renumber r) y cast alone) := by
  rw [side, side]
  refine .ite (.map castText (prints_byItself e text)) (.ite (prints_byItself e text) ?_)
  exact prints_inContext e text

theorem prints_unaryText (op : UnaryOp) :
    Prints T S r (unaryText op e x) (unaryText op (e.renumber r) y) := by
  unfold unaryText
  rw [Expr.shape_renumber]
  cases op <;> cases e.shape.signed
  · exact (prints_byItself e text).bind fun t => .pure _
  · exact (prints_inContext e text).bind fun t => .pure _
  · exact (prints_byItself e text).bind fun t => .pure _
  · exact (prints_inContext e text).bind fun t => .pure _

omit text
include left right

theorem prints_aligned (alone : Bool) :
    Prints T S r (aligned a b xa xb alone) (aligned (a.renumber r) (b.renumber r) ya yb alone) := by
  rw [aligned, aligned, Expr.shape_renumber, Expr.shape_renumber]
  exact (prints_side a left _ alone).bind fun l =>
    (prints_side b right _ alone).bind fun _ => .pure _

theorem prints_binaryText (op : BinaryOp) :
    Prints T S r (binaryText op a b xa xb) (binaryText op (a.renumber r) (b.renumber r) ya yb) := by
  rw [binaryText, binaryText, Expr.shape_renumber, Expr.shape_renumber]
  refine .ite ?_ (.ite ?_ (.ite ?_ ?_))
  · exact (prints_byItself a left).bind fun l => (prints_byItself b right).bind fun _ => .pure _
  · exact (prints_aligned a b left right true).bind fun _ => .pure _
  · exact (prints_aligned a b left right true).bind fun _ => .pure _
  · exact (prints_aligned a b left right false).bind fun _ => .pure _

end Operands

/-- A slice of anything but a signal is taken from a temporary. -/
theorem print_slice {a : Expr} (unnamed : ∀ s, a ≠ .signal s) (start stop : Nat) :
    print (.slice a start stop) = (do
      let base ← hoistAs a (print a)
      let text ← selectText base a.width start stop
      return if a.shape.signed then s!"$signed({text})" else text) := by
  cases a with
  | signal s => exact absurd rfl (unnamed s)
  | _ => rfl

theorem target_slice {a : Expr} (unnamed : ∀ s, a ≠ .signal s) (start stop : Nat) :
    target (.slice a start stop) = contextual (.slice a start stop) := by
  cases a with
  | signal s => exact absurd rfl (unnamed s)
  | _ => rfl

theorem renumber_ne_signal {a : Expr} (unnamed : ∀ s, a ≠ .signal s) (s : Signal) :
    a.renumber r ≠ .signal s := by
  cases a with
  | signal t => exact absurd rfl (unnamed t)
  | _ => simp [Expr.renumber]

/-- An expression about signals of `S`, in which no slice is empty, unless `T`. -/
def Shown (T : Prop) (S : Signal → Prop) (e : Expr) : Prop := Within S e.mentions ∧ e.Solid T

theorem hereditary_shown : Expr.Hereditary (Shown T S) T :=
  (Expr.hereditary_mentions S).and (Expr.hereditary_solid T)

/-- An expression about signals of `S` that has bits, unless `T`. -/
def Known (T : Prop) (S : Signal → Prop) (e : Expr) : Prop :=
  Within S e.mentions ∧ (T ∨ e.Filled)

theorem Known.shown {e : Expr} (h : Known T S e) : Shown T S e := ⟨h.1, Expr.solid_of_filled h.2⟩

mutual
theorem prints_print [r.Increasing] (e : Expr) (shown : Shown T S e) :
    Prints T S r (print e) (print (e.renumber r)) := by
  cases e with
  | literal | ref => exact .pure _
  | signal s => exact prints_nameOf (shown.1 s (.head _))
  | unary op a =>
    have inner := prints_print a ⟨shown.1, shown.2.of_node (.tail _ a.mem_nodes_self)⟩
    rw [Expr.renumber, print, print]
    exact prints_unaryText a inner op
  | binary op a b =>
    obtain ⟨left, right⟩ := List.forall_mem_append.mp shown.1
    have first := prints_print a
      ⟨left, shown.2.of_node (.tail _ (List.mem_append_left _ a.mem_nodes_self))⟩
    have second := prints_print b
      ⟨right, shown.2.of_node (.tail _ (List.mem_append_right _ b.mem_nodes_self))⟩
    rw [Expr.renumber, print, print]
    exact prints_binaryText a b first second op
  | slice a start stop =>
    obtain ⟨inner, some⟩ := hereditary_shown.slice.mp shown
    -- bits can be selected of a name only, so the bits of another value go through a temporary
    by_cases named : ∃ s, a = .signal s
    · obtain ⟨s, rfl⟩ := named
      exact (prints_nameOf (shown.1 s (.head _))).bind fun base =>
        (prints_selectText base _ some).bind fun text => .pure _
    · have unnamed : ∀ s, a ≠ .signal s := fun s same => named ⟨s, same⟩
      rw [Expr.renumber, print_slice unnamed, print_slice (renumber_ne_signal unnamed),
        Expr.width_renumber, Expr.shape_renumber]
      exact (prints_hoistAs a (prints_print a inner)).bind fun base =>
        (prints_selectText base _ some).bind fun text => .pure _
  | concat ps =>
    rw [Expr.renumber, print, print]
    exact (prints_printParts ps (hereditary_shown.concat.mp shown)).bind fun texts => .pure _
  | replicate a n =>
    have inner := prints_print a ⟨shown.1, shown.2.of_node (.tail _ a.mem_nodes_self)⟩
    rw [Expr.renumber, print, print]
    exact (prints_byItself a inner).bind fun text => .pure _
  | mux s cs =>
    obtain ⟨selector, choices⟩ := hereditary_shown.mux.mp shown
    have signed := congrArg Shape.signed (Expr.shape_renumber (r := r) (.mux s cs))
    rw [Expr.renumber] at signed ⊢
    rw [print, print, signed, Expr.width_renumber]
    refine (prints_printChoices _ cs choices).bind fun texts => ?_
    cases texts.getLast? with
    | none => exact .pure _
    | some last =>
      cases texts.dropLast with
      | nil => exact .pure _
      | cons first more =>
        refine (prints_byItself s (prints_print s selector)).bind fun text => ?_
        exact .ite (.pure _) (.pure _)

theorem prints_printParts [r.Increasing] (ps : List Expr) (shown : ∀ p ∈ ps, Shown T S p) :
    Prints T S r (printParts ps) (printParts (Expr.renumberAll r ps)) := by
  cases ps with
  | nil => exact .pure []
  | cons p ps =>
    obtain ⟨head, tail⟩ := List.forall_mem_cons.mp shown
    rw [Expr.renumberAll, printParts, printParts]
    exact (prints_printParts ps tail).bind fun rest =>
      (prints_byItself p (prints_print p head)).bind fun text => .pure _

theorem prints_printChoices [r.Increasing] (signed : Bool) (cs : List Expr)
    (shown : ∀ c ∈ cs, Shown T S c) :
    Prints T S r (printChoices signed cs) (printChoices signed (Expr.renumberAll r cs)) := by
  cases cs with
  | nil => exact .pure []
  | cons c cs =>
    obtain ⟨head, tail⟩ := List.forall_mem_cons.mp shown
    rw [Expr.renumberAll, printChoices, printChoices, Expr.shape_renumber]
    exact (prints_side c (prints_print c head) _ false).bind fun text =>
      (prints_printChoices signed cs tail).bind fun rest => .pure _
end

theorem prints_contextual [r.Increasing] {e : Expr} (shown : Shown T S e) :
    Prints T S r (contextual e) (contextual (e.renumber r)) :=
  prints_inContext e (prints_print e shown)

theorem prints_operand [r.Increasing] {e : Expr} (shown : Shown T S e) :
    Prints T S r (operand e) (operand (e.renumber r)) :=
  prints_byItself e (prints_print e shown)

theorem prints_assigned [r.Increasing] {e : Expr} (width : Nat) (shown : Shown T S e) :
    Prints T S r (assigned e width) (assigned (e.renumber r) width) := by
  rw [assigned, assigned, isWrappingSub_renumber, Expr.width_renumber]
  exact .ite (prints_print e shown) (prints_contextual shown)

/-! ### Targets and assignments -/

mutual
theorem prints_target [r.Increasing] (e : Expr) (shown : Shown T S e) :
    Prints T S r (target e) (target (e.renumber r)) := by
  cases e with
  | signal s => exact prints_nameOf (shown.1 s (.head _))
  | slice a start stop =>
    by_cases named : ∃ s, a = .signal s
    · obtain ⟨s, rfl⟩ := named
      exact (prints_nameOf (shown.1 s (.head _))).bind fun name =>
        prints_selectText name _ (hereditary_shown.slice.mp shown).2
    · have unnamed : ∀ s, a ≠ .signal s := fun s same => named ⟨s, same⟩
      rw [Expr.renumber, target_slice unnamed, target_slice (renumber_ne_signal unnamed)]
      exact prints_contextual shown
  | concat ps =>
    rw [Expr.renumber, target, target]
    exact (prints_targets ps (hereditary_shown.concat.mp shown)).bind fun texts => .pure _
  | literal | ref | unary | binary | replicate | mux => exact prints_contextual shown

theorem prints_targets [r.Increasing] (ps : List Expr) (shown : ∀ p ∈ ps, Shown T S p) :
    Prints T S r (targets ps) (targets (Expr.renumberAll r ps)) := by
  cases ps with
  | nil => exact .pure []
  | cons p ps =>
    obtain ⟨head, tail⟩ := List.forall_mem_cons.mp shown
    rw [Expr.renumberAll, targets, targets]
    exact (prints_targets ps tail).bind fun rest =>
      (prints_target p head).bind fun text => .pure _
end

theorem prints_plainAssignment [r.Increasing] {lhs rhs : Expr} (left : Shown T S lhs)
    (right : Shown T S rhs) :
    Prints T S r (plainAssignment lhs rhs) (plainAssignment (lhs.renumber r) (rhs.renumber r)) := by
  rw [plainAssignment, plainAssignment, Expr.width_renumber]
  exact (prints_target lhs left).bind fun l =>
    (prints_assigned lhs.width right).bind fun _ => .pure _

theorem Known.parts {ps : List Expr} (h : Known T S (.concat ps)) : ∀ p ∈ ps, Known T S p :=
  fun p hp => ⟨Expr.within_mentionsOf.mp h.1 p hp, h.2.imp_right (·.parts p hp)⟩

theorem Known.selector {s : Expr} {cs : List Expr} (h : Known T S (.mux s cs)) : Known T S s :=
  ⟨(List.forall_mem_append.mp h.1).1, h.2.imp_right (·.selector)⟩

theorem Known.choices {s : Expr} {cs : List Expr} (h : Known T S (.mux s cs)) :
    ∀ c ∈ cs, Known T S c := fun c hc =>
  ⟨Expr.within_mentionsOf.mp (List.forall_mem_append.mp h.1).2 c hc,
    h.2.imp_right (·.choices c hc)⟩

mutual
theorem prints_assignment [r.Increasing] (lhs rhs : Expr) (left : Known T S lhs)
    (right : Shown T S rhs) (apt : T ∨ rhs.Apt) :
    Prints T S r (assignment lhs rhs) (assignment (lhs.renumber r) (rhs.renumber r)) := by
  cases lhs with
  | mux s cs =>
    have selector := prints_operand (r := r) left.selector.shown
    match cs with
    | [] =>
      simp only [Expr.renumber, Expr.renumberAll, assignment, choiceAssignments]
      exact selector.bind fun _ => .pure _
    | [c] =>
      simp only [Expr.renumber, Expr.renumberAll, assignment]
      exact prints_assignment c rhs (left.choices c (.head _)) right apt
    -- one choice is assigned without a test, more are told apart by the selector
    | c :: d :: ds =>
      have arms := prints_choiceAssignments (c :: d :: ds) rhs s.width 0
        ((c :: d :: ds).length - 1) left.choices right apt
      simp only [Expr.renumberAll, List.length_cons] at arms
      simp only [Expr.renumber, Expr.renumberAll, assignment, Expr.width_renumber, List.length_cons,
        Expr.length_renumberAll]
      exact selector.bind fun _ => arms.bind fun _ => .pure _
  | concat ps =>
    simp only [Expr.renumber, assignment, Expr.anyChoice_renumberAll,
      Expr.width_concat_renumberAll, Expr.fit_renumber, Expr.unfit_renumber]
    refine .ite ((prints_watch fun below => ?_).bind fun _ => ?_)
      (prints_plainAssignment left.shown right)
    · exact apt.resolve_right fun apt => Bool.noConfusion ((apt _).symm.trans below)
    · have width := left.2.symm.imp_left fun filled => (filled _ (.head _)).1
      exact prints_partAssignments ps _ 0 left.parts (hereditary_shown.fit right width)
  | literal | signal | ref | unary | binary | slice | replicate =>
    simp only [Expr.renumber, assignment]
    exact prints_plainAssignment left.shown right
termination_by structural lhs

theorem prints_partAssignments [r.Increasing] (ps : List Expr) (rhs : Expr) (lo : Nat)
    (left : ∀ p ∈ ps, Known T S p) (right : Shown T S rhs) :
    Prints T S r (partAssignments ps rhs lo)
      (partAssignments (Expr.renumberAll r ps) (rhs.renumber r) lo) := by
  cases ps with
  | nil =>
    simp only [Expr.renumberAll, partAssignments]
    exact .pure []
  | cons p ps =>
    obtain ⟨head, tail⟩ := List.forall_mem_cons.mp left
    have bits : lo < lo + p.width ∨ T := head.2.symm.imp_left fun filled =>
      Nat.lt_add_of_pos_right (filled p p.mem_nodes_self).1
    simp only [Expr.renumberAll, partAssignments, Expr.width_renumber, Expr.extract_renumber]
    refine Prints.bind ?_ fun first =>
      (prints_partAssignments ps rhs _ tail right).bind fun rest => .pure _
    exact prints_assignment p _ head (hereditary_shown.extract rhs right bits)
      (bits.symm.imp_right (Expr.apt_extract rhs))
termination_by structural ps

theorem prints_choiceAssignments [r.Increasing] (cs : List Expr) (rhs : Expr) (width i last : Nat)
    (left : ∀ c ∈ cs, Known T S c) (right : Shown T S rhs) (apt : T ∨ rhs.Apt) :
    Prints T S r (choiceAssignments cs rhs width i last)
      (choiceAssignments (Expr.renumberAll r cs) (rhs.renumber r) width i last) := by
  cases cs with
  | nil =>
    simp only [Expr.renumberAll, choiceAssignments]
    exact .pure []
  | cons c cs =>
    obtain ⟨head, tail⟩ := List.forall_mem_cons.mp left
    simp only [Expr.renumberAll, choiceAssignments]
    exact (prints_assignment c rhs head right apt).bind fun body =>
      (prints_choiceAssignments cs rhs width _ last tail right apt).bind fun rest => .pure _
termination_by structural cs
end

/-! ### Statements -/

mutual
theorem prints_statement [r.Increasing] (s : Stmt) (values : ∀ e ∈ s.exprs, Known T S e)
    (targets : ∀ t ∈ s.targets, T ∨ t.normal.Filled) :
    Prints T S r (statement s) (statement (s.mapExprs (Expr.renumber r))) := by
  match s with
  | .assign lhs rhs =>
    have value := values rhs (.tail _ (.head _))
    have place : Known T S lhs.normal :=
      ⟨fun s hs => (values lhs (.head _)).1 s (Expr.mentions_normal lhs hs), targets lhs (.head _)⟩
    rw [Stmt.mapExprs, statement, statement, Expr.normal_renumber]
    exact prints_assignment _ rhs place value.shown (value.2.imp_right (·.apt))
  | .branch cond yes no =>
    simp only [Stmt.exprs, List.forall_mem_cons, List.forall_mem_append] at values
    simp only [Stmt.targets, List.forall_mem_append] at targets
    rw [Stmt.mapExprs, statement, statement, Stmt.isEmpty_mapExprsOf]
    refine (prints_operand values.1.shown).bind fun cond => ?_
    refine (prints_statements yes values.2.1 targets.1).bind fun yes => ?_
    exact .ite (.pure _) ((prints_statements no values.2.2 targets.2).bind fun _ => .pure _)
  | .select test arms =>
    simp only [Stmt.exprs, List.forall_mem_cons] at values
    rw [Stmt.mapExprs, statement, statement]
    exact (prints_operand values.1.shown).bind fun test =>
      (prints_armStatements arms values.2 targets).bind fun _ => .pure _
  | .nextState _ | .nextValue _ _ => exact .pure []

theorem prints_statements [r.Increasing] (ss : List Stmt)
    (values : ∀ e ∈ Stmt.exprsOf ss, Known T S e)
    (targets : ∀ t ∈ Stmt.targetsOf ss, T ∨ t.normal.Filled) :
    Prints T S r (statements ss) (statements (Stmt.renumberOf r ss)) := by
  match ss with
  | [] => exact .pure []
  | s :: ss =>
    simp only [Stmt.exprsOf, List.forall_mem_append] at values
    simp only [Stmt.targetsOf, List.forall_mem_append] at targets
    rw [Stmt.renumberOf, Stmt.mapExprsOf, statements, statements]
    exact (prints_statement s values.1 targets.1).bind fun first =>
      (prints_statements ss values.2 targets.2).bind fun rest => .pure _

theorem prints_armStatements [r.Increasing] (arms : Arms)
    (values : ∀ e ∈ Stmt.exprsOfArms arms, Known T S e)
    (targets : ∀ t ∈ Stmt.targetsOfArms arms, T ∨ t.normal.Filled) :
    Prints T S r (armStatements arms)
      (armStatements (Stmt.mapExprsOfArms (Expr.renumber r) arms)) := by
  match arms with
  | .done => exact .pure []
  | .otherwise body =>
    rw [Stmt.mapExprsOfArms, armStatements, armStatements]
    exact (prints_statements body values targets).bind fun body => .pure _
  | .arm key body rest =>
    simp only [Stmt.exprsOfArms, List.forall_mem_append] at values
    simp only [Stmt.targetsOfArms, List.forall_mem_append] at targets
    rw [Stmt.mapExprsOfArms, armStatements, armStatements]
    exact (prints_statements body values.1 targets.1).bind fun body =>
      (prints_armStatements rest values.2 targets.2).bind fun rest => .pure _
end

theorem prints_resets {signals : List Signal} (within : Within S signals) :
    Prints T S r (resets signals) (resets (signals.map (Signal.renumber r))) := by
  apply Prints.mapM
  intro s hs
  exact (prints_nameOf (within s hs)).bind fun name => .pure _

/-- The statements have bits in all their expressions, and their targets in normal form as well. -/
structure FilledBlock (ss : List Stmt) : Prop where
  targets : ∀ t ∈ Stmt.targetsOf ss, t.normal.Filled
  values : ∀ e ∈ Stmt.exprsOf ss, e.Filled

/-- The signals that statements assign are among those they mention. -/
theorem within_assigned {ss : List Stmt} (within : Stmt.AllWithin S (Stmt.exprsOf ss)) :
    Within S (Stmt.assigned ss).toList := by
  intro s hs
  obtain ⟨t, ht, drives⟩ := List.mem_flatMap.mp (OrdSet.mem_ofList.mp hs)
  exact within t (Stmt.targetsOf_subset_exprsOf ss ht) s (Expr.drives_subset_mentions t drives)

theorem prints_clockedBlock [r.Increasing] {d : ClockDomain} {ss : List Stmt}
    (signals : Within S d.signals) (within : Stmt.AllWithin S (Stmt.exprsOf ss))
    (filled : T ∨ FilledBlock ss) :
    Prints T S r (clockedBlock d ss) (clockedBlock (d.renumber r) (Stmt.renumberOf r ss)) := by
  have resettable : (Stmt.assigned (Stmt.renumberOf r ss)).toList.filter (!·.resetLess) =
      ((Stmt.assigned ss).toList.filter (!·.resetLess)).map (Signal.renumber r) := by
    rw [Stmt.assigned_renumberOf, OrdSet.toList_image Signal.keeps_renumber, List.filter_map]
    rfl
  have cleared : Within S ((Stmt.assigned ss).toList.filter (!·.resetLess)) := fun s hs =>
    within_assigned within s (List.mem_filter.mp hs).1
  have clears := prints_resets (T := T) (r := r) cleared
  have body := prints_statements (r := r) ss
    (fun e he => ⟨within e he, filled.imp_right (·.values e he)⟩)
    (fun t ht => filled.imp_right (·.targets t ht))
  obtain ⟨name, clk, rst, asyncReset⟩ := d
  unfold clockedBlock
  rw [resettable]
  generalize (Stmt.assigned ss).toList.filter (!·.resetLess) = registers at clears
  refine (prints_nameOf (signals clk (.head _))).bind fun clk => ?_
  -- A block without anything to clear does not mention the reset.
  cases registers with
  | nil => exact body.bind fun _ => .pure _
  | cons s registers =>
    cases rst with
    | none => exact body.bind fun _ => .pure _
    | some rst =>
      refine (prints_nameOf (signals rst (.tail _ (.head _)))).bind fun rst => ?_
      cases asyncReset with
      | true => exact clears.bind fun _ => body.bind fun _ => .pure _
      | false => exact body.bind fun _ => clears.bind fun _ => .pure _

/-! ### Steps that may fail -/

/-- Steps that fail alike or go on alike. -/
def SameEmit (S : Signal → Prop) (r : Numbering) (x y : Emit α) : Prop := OrFail (Alike S r) id x y

namespace SameEmit

theorem pure (a : α) : SameEmit S r (pure a) (pure a) := OrFail.pure a

theorem throw (f : Fault) : SameEmit S r (throw f : Emit α) (throw f) := OrFail.throw f

theorem bind {x y : Emit α} {k l : α → Emit β} (first : SameEmit S r x y)
    (rest : ∀ a, SameEmit S r (k a) (l a)) : SameEmit S r (x >>= k) (y >>= l) :=
  OrFail.bind first rest

theorem lift {x y : Print α} (same : SameText S r x y) :
    SameEmit S r (liftM x : Emit α) (liftM y) := OrFail.lift same

theorem ite {c : Prop} [Decidable c] {x y x' y' : Emit α} (yes : SameEmit S r x y)
    (no : SameEmit S r x' y') : SameEmit S r (if c then x else x') (if c then y else y') :=
  OrFail.ite yes no

theorem mapM {f : γ → Emit α} {f' : β → Emit α} {g : γ → β} (xs : List γ)
    (each : ∀ x ∈ xs, SameEmit S r (f x) (f' (g x))) :
    SameEmit S r (xs.mapM f) ((xs.map g).mapM f') := by
  have list := OrFail.mapM rfl each
  rwa [List.map_id_fun] at list

/-- The domain of a name has its signals renumbered. -/
theorem domainNamed_bind {domains : List ClockDomain} {name : String} {k l : ClockDomain → Emit α}
    (rest : ∀ d ∈ domains, SameEmit S r (k d) (l (d.renumber r))) :
    SameEmit S r (liftM (domainNamed domains name) >>= k)
      (liftM (domainNamed (domains.map (ClockDomain.renumber r)) name) >>= l) := by
  rw [domainNamed, domainNamed, ClockDomain.find?_renumber]
  cases found : domains.find? (·.name = name) with
  | none => exact .throw _
  | some d => exact rest d (List.mem_of_find?_eq_some found)

end SameEmit

/-! ### Cells -/

theorem prints_connection [r.Increasing] (i : Instance.Item)
    (shown : ∀ direction port value, i = .connect direction port value → Shown T S value) :
    Prints T S r (connection i) (connection (i.renumber r)) := by
  cases i with
  | param => exact .pure none
  | connect direction port value =>
    have value := shown direction port value rfl
    cases direction with
    | input => exact (prints_operand value).bind fun _ => .pure _
    | output | inout => exact (prints_target _ value).bind fun _ => .pure _

/-- All signals at the ports of a kind are in a set. -/
abbrev PortsWithin (S : Signal → Prop) (ports : List Cell.Port) : Prop :=
  ∀ p ∈ ports, Within S p.value.mentions

theorem prints_connections [r.Increasing] {i : Instance}
    (known : ∀ p ∈ (Cell.Kind.inst i).ports, Known T S p.value) :
    Prints T S r (i.items.mapM connection)
      ((i.items.map (Instance.Item.renumber r)).mapM connection) := by
  refine .mapM _ fun item member => prints_connection item ?_
  rintro direction port value rfl
  exact (known ⟨port, value, direction⟩ (List.mem_filterMap.mpr ⟨_, member, rfl⟩)).shown

theorem sameText_instanceText [r.Increasing] (i : Instance)
    (within : PortsWithin S (Cell.Kind.inst i).ports) :
    SameText S r (instanceText i)
      (instanceText { i with items := i.items.map (Instance.Item.renumber r) }) := by
  have settings : (i.items.map (Instance.Item.renumber r)).filterMap setting? =
      i.items.filterMap setting? := by
    rw [List.filterMap_map]
    congr 1
    funext item
    cases item <;> rfl
  simp only [instanceText, settings]
  refine (sameText_claim _).bind fun name => SameText.bind ?_ fun _ => .pure _
  exact (prints_connections (T := True) fun p hp => ⟨within p hp, .inl trivial⟩).same

theorem prints_tristateText [r.Increasing] (t : Tristate)
    (known : ∀ p ∈ (Cell.Kind.tristate t).ports, Known T S p.value) :
    Prints T S r (tristateText t) (tristateText
      ⟨t.target.renumber r, t.o.renumber r, t.oe.renumber r, t.i.map (Signal.renumber r)⟩) := by
  obtain ⟨target, o, oe, i⟩ := t
  have pad : S target := (known ⟨"target", target, .inout⟩ (.head _)).1 target (.head _)
  have value := (known ⟨"o", o, .input⟩ (.tail _ (.head _))).shown
  have enable := (known ⟨"oe", oe, .input⟩ (.tail _ (.tail _ (.head _)))).shown
  refine (prints_nameOf pad).bind fun pad => (prints_operand enable).bind fun _ => ?_
  refine (prints_assigned target.width value).bind fun _ => ?_
  cases i with
  | none => exact .pure _
  | some i =>
    have input : S i :=
      (known ⟨"i", i, .output⟩ (.tail _ (.tail _ (.tail _ (.head _))))).1 i (.head _)
    exact (prints_nameOf input).bind fun _ => .pure _

theorem prints_directiveText (d : Directive)
    (within : PortsWithin S (Cell.Kind.directive d).ports) :
    Prints T S r (directiveText d)
      (directiveText { d with signals := d.signals.map (Signal.renumber r) }) := by
  refine Prints.bind ?_ fun names => .pure _
  apply Prints.mapM
  intro s member
  apply prints_nameOf
  obtain ⟨i, place⟩ := List.mem_iff_getElem?.mp member
  have listed : (⟨toString i, s, .input⟩ : Cell.Port) ∈ (Cell.Kind.directive d).ports :=
    List.mem_map.mpr ⟨(s, i), List.mk_mem_zipIdx_iff_getElem?.mpr place, rfl⟩
  exact within _ listed s (.head _)

theorem prints_initText (style : MemoryInit) (m : Memory) (name : String) :
    Prints T S r (initText style m name) (initText style (m.renumber r) name) := by
  have same : imageText (m.renumber r) = imageText m := rfl
  unfold initText
  rw [same]
  refine .ite (.pure []) ?_
  cases style with
  | inline => exact .pure _
  | file =>
    refine ⟨.bind (.modify fun p q alike => ?_) fun _ => .pure _, fun p => .file _ (.refl _)⟩
    exact { alike with files := by rw [alike.files] }

/-- All signals of a memory port are in a set. -/
structure PortWithin (S : Signal → Prop) (p : Memory.Port) : Prop where
  adr : S p.adr
  datR : S p.datR
  write : ∀ w, p.write = some w → S w.enable ∧ S w.data
  re : ∀ s, p.re = some s → S s

theorem portWithin {p : Memory.Port} (within : PortsWithin S (Cell.Kind.memoryPorts p)) :
    PortWithin S p := by
  obtain ⟨name, adr, datR, write, re, mode, asyncRead, granularity, domain⟩ := p
  simp only [PortsWithin, Cell.Kind.memoryPorts, List.forall_mem_append] at within
  obtain ⟨⟨base, wr⟩, rd⟩ := within
  refine ⟨base _ (.head _) _ (.head _), base _ (.tail _ (.head _)) _ (.head _), ?_, ?_⟩
  · rintro w rfl
    exact ⟨wr _ (.head _) _ (.head _), wr _ (.tail _ (.head _)) _ (.head _)⟩
  · rintro s rfl
    exact rd _ (.head _) _ (.head _)

theorem prints_writeText (m : Memory) {p : Memory.Port} (within : PortWithin S p)
    (name adr : String) :
    Prints T S r (writeText m p name adr)
      (writeText (m.renumber r) (p.renumber r) name adr) := by
  obtain ⟨portName, portAdr, datR, write, re, mode, asyncRead, granularity, domain⟩ := p
  cases write with
  | none => exact .pure []
  | some w =>
    obtain ⟨enable, data⟩ := within.write w rfl
    refine (prints_nameOf enable).bind fun we => (prints_nameOf data).bind fun data => ?_
    exact .ite (.pure _) (.pure _)

theorem prints_readGates {p : Memory.Port} (within : PortWithin S p) :
    Prints T S r (readGates p) (readGates (p.renumber r)) := by
  obtain ⟨portName, portAdr, datR, write, re, mode, asyncRead, granularity, domain⟩ := p
  refine Prints.bind ?_ fun gates => ?_
  · cases re with
    | none => exact .pure []
    | some s =>
      exact Prints.mapM (g := Signal.renumber r) [s] (by
        simpa using prints_nameOf (within.re s rfl))
  · cases write with
    | none => cases mode <;> exact Prints.bind (.pure []) fun idle => .pure _
    | some w =>
      cases mode with
      | noChange =>
        refine (prints_nameOf (within.write w rfl).1).bind fun we => ?_
        exact Prints.bind (.pure _) fun idle => .pure _
      | readFirst | writeFirst => exact Prints.bind (.pure []) fun idle => .pure _

theorem sameText_readRegister (m : Memory) (p : Memory.Port) (index : Nat) (name adr : String) :
    SameText S r (readRegister m p index name adr)
      (readRegister (m.renumber r) (p.renumber r) index name adr) :=
  .ite ((sameText_claim _).bind fun _ => .pure _) ((sameText_claim _).bind fun _ => .pure _)

theorem sameEmit_memoryPortText {domains : List ClockDomain}
    (signals : ∀ d ∈ domains, Within S d.signals) (m : Memory) (name : String) {p : Memory.Port}
    (within : PortWithin S p) (index : Nat) :
    SameEmit S r (memoryPortText domains m name p index)
      (memoryPortText (domains.map (ClockDomain.renumber r)) (m.renumber r) name
        (p.renumber r) index) := by
  unfold memoryPortText
  rw [Memory.Port.clocked_renumber]
  refine (SameEmit.lift (prints_nameOf (T := True) within.adr).same).bind fun adr => ?_
  refine (SameEmit.lift (prints_nameOf (T := True) within.datR).same).bind fun datR => ?_
  refine .ite (.pure _) (.domainNamed_bind fun d hd => ?_)
  refine (SameEmit.lift
    (prints_nameOf (T := True) (signals d hd _ (.head _))).same).bind fun clk => ?_
  have writes := (prints_writeText (T := True) (r := r) m within name adr).same
  refine .ite ?_ ?_
  · exact (SameEmit.lift writes).bind fun _ => .pure _
  · refine (SameEmit.lift (sameText_readRegister m p index name adr)).bind fun _ => ?_
    refine (SameEmit.lift writes).bind fun _ => ?_
    exact (SameEmit.lift (prints_readGates (T := True) within).same).bind fun _ => .pure _

theorem sameEmit_memoryText [r.Increasing] {domains : List ClockDomain}
    (signals : ∀ d ∈ domains, Within S d.signals) (style : MemoryInit) (m : Memory)
    (within : PortsWithin S (Cell.Kind.memory m).ports) :
    SameEmit S r (memoryText domains style m)
      (memoryText (domains.map (ClockDomain.renumber r)) style (m.renumber r)) := by
  refine (SameEmit.lift (sameText_claim _)).bind fun name => ?_
  refine (SameEmit.lift (prints_initText (T := True) style m name).same).bind fun init => ?_
  refine SameEmit.bind ?_ fun _ => .pure _
  rw [Memory.ports_renumber, List.zipIdx_map]
  apply SameEmit.mapM
  rintro ⟨p, i⟩ member
  apply sameEmit_memoryPortText signals
  apply portWithin
  intro q hq
  exact within q (List.mem_flatMap.mpr ⟨p, (List.mem_zipIdx member).2.2 ▸ List.getElem_mem _, hq⟩)

theorem sameEmit_cellText [r.Increasing] {domains : List ClockDomain}
    (signals : ∀ d ∈ domains, Within S d.signals) (style : MemoryInit) (c : Cell)
    (within : PortsWithin S c.ports) :
    SameEmit S r (cellText domains style c)
      (cellText (domains.map (ClockDomain.renumber r)) style (c.renumber r)) := by
  obtain ⟨id, kind⟩ := c
  cases kind with
  | inst i => exact (SameEmit.lift (sameText_instanceText i within)).bind fun body => .pure _
  | memory m => exact (sameEmit_memoryText signals style m within).bind fun body => .pure _
  | tristate t =>
    have text := prints_tristateText (T := True) (r := r) t fun p hp => ⟨within p hp, .inl trivial⟩
    exact (SameEmit.lift text.same).bind fun body => .pure _
  | directive d =>
    have text := prints_directiveText (T := True) (r := r) d within
    exact (SameEmit.lift text.same).bind fun body => .pure _
  | multiReg | resetSync | diffInput | diffOutput =>
    exact SameEmit.bind (.throw _) fun body => .pure _

/-! ### What cells add -/

section Adds

variable {m : Memory} {p : Memory.Port} {d : Directive} {t : Tristate} {i : Instance}

theorem onlyAdds_connections (filled : ∀ p ∈ (Cell.Kind.inst i).ports, T ∨ p.value.Filled) :
    OnlyAdds T (i.items.mapM connection) :=
  (prints_connections (S := fun _ => True) (r := .same) fun p hp =>
    ⟨fun _ _ => trivial, filled p hp⟩).adds

theorem onlyAdds_tristateText (filled : ∀ p ∈ (Cell.Kind.tristate t).ports, T ∨ p.value.Filled) :
    OnlyAdds T (tristateText t) :=
  (prints_tristateText (S := fun _ => True) (r := .same) t fun p hp =>
    ⟨fun _ _ => trivial, filled p hp⟩).adds

theorem onlyAdds_directiveText : OnlyAdds T (directiveText d) :=
  (prints_directiveText (S := fun _ => True) (r := .same) d fun _ _ _ _ => trivial).adds

theorem onlyAdds_initText (style : MemoryInit) (name : String) :
    OnlyAdds T (initText style m name) :=
  (prints_initText (S := fun _ => True) (r := .same) style m name).adds

theorem portWithin_all : PortWithin (fun _ => True) p :=
  ⟨trivial, trivial, fun _ _ => ⟨trivial, trivial⟩, fun _ _ => trivial⟩

theorem onlyAdds_writeText (name adr : String) : OnlyAdds T (writeText m p name adr) :=
  (prints_writeText (r := .same) m portWithin_all name adr).adds

theorem onlyAdds_readGates : OnlyAdds T (readGates p) :=
  (prints_readGates (r := .same) portWithin_all).adds

end Adds

end Gateware.Verilog
