import Gateware.Proofs.Verilog.Emission
import Gateware.Proofs.Verilog.Identifiers
import Mathlib.Data.List.Induction

/-!
# The names of a written module

Signals are named first. Temporaries, instances, memories and the registers of memories then take
names from the same scope while the module is printed, in an order that depends on the expressions.

## Main results

* `taken_assign`: the names of signals.
* `declaring_cellText`: the names that the text of a cell declares.
* `write_identifiers`: all names of a written module are identifiers that differ from each other,
  and which reserved words are among them.

## Proof strategy

`Tidy` ties the scope of a printer to the names that were given: those of signals, of temporaries
and of what was declared so far. Between two requests printing only adds temporaries, which keeps it
(`Tidy.adds`). `Declaring` follows the text of a cell from one request to the next.
-/
namespace Gateware.Verilog

variable {α β γ : Type}

/-! ### Signals -/

/-- Signals are given names of their own; one that is listed twice is named once. -/
theorem taken_assign (hint : Signal → String) (order : List Signal) :
    Taken (order.map hint) (Names.assign ∅ (order.map fun s => (s, hint s))).1.values
      (Names.assign ∅ (order.map fun s => (s, hint s))).2 := by
  induction order using List.reverseRecOn with
  | nil => exact .nil
  | append_singleton order s ih =>
    have step : Names.assign ∅ ((order ++ [s]).map fun s => (s, hint s)) =
        Names.give (Names.assign ∅ (order.map fun s => (s, hint s))) (s, hint s) := by
      rw [Names.assign_eq, List.map_append, List.foldl_append]
      rfl
    have asked : ∀ h, h ∈ hint s :: order.map hint ↔ h ∈ (order ++ [s]).map hint := by
      simp [or_comm]
    rw [step, Names.give]
    split
    next known =>
      -- The hint of a signal that is listed again was asked for before.
      have listed : s ∈ order := by simpa using (contains_assign ∅ _ s).mp known
      refine ih.congr_asked fun h => ?_
      rw [← asked, List.mem_cons]
      refine ⟨.inr, ?_⟩
      rintro (rfl | earlier)
      · exact List.mem_map_of_mem listed
      · exact earlier
    next new =>
      have absent : (Names.assign ∅ (order.map fun s => (s, hint s))).1.get? s = none := by
        simpa [OrdMap.contains] using new
      have given := (ih.claim (hint s)).congr_asked asked
      exact given.perm (OrdMap.values_insert_perm absent _).symm

/-! ### The printer's scope -/

/-- The names in use are those of signals, of temporaries and of what else is declared. -/
structure Tidy (names : Names) (asked held : List String) (p : Printer) : Prop where
  same : p.names = names
  taken : Taken asked (names.values ++ p.temps.map (·.name) ++ held) p.used

namespace Tidy

variable {names : Names} {asked held : List String} {p q : Printer}

theorem hoist (h : Tidy names asked held p) (e : Expr) (text : String) :
    Tidy names asked held (p.hoist e text) where
  same := h.same
  taken := by
    have plain : legalize "_tmp" ∉ unlisted := by decide +kernel
    -- The new name stands between the older temporaries and what is declared.
    refine ((h.taken.claim "_tmp").forget plain).perm ?_
    simp only [Printer.hoist, List.map_append, List.map_cons, List.map_nil]
    rw [← List.append_assoc names.values, List.append_assoc _ [_], List.singleton_append]
    exact List.perm_middle.symm

/-- Printing between two requests keeps the scope tidy. -/
theorem adds (h : Tidy names asked held p) (more : Adds True p q) : Tidy names asked held q := by
  induction more with
  | refl => exact h
  | temp e text _ ih => exact ih (h.hoist e text)
  | file _ _ ih | stop _ _ ih => exact ih ⟨h.same, h.taken⟩

/-- So does a request, and what it gives is declared next. -/
theorem claim (h : Tidy names asked held p) (hint : String) :
    Tidy names (asked ++ [hint]) (held ++ [p.used.free hint])
      { p with used := p.used.insert (p.used.free hint) } where
  same := h.same
  taken := by
    have given := (h.taken.claim hint).perm (List.perm_append_singleton _ _).symm
    rw [List.append_assoc] at given
    exact given.congr_asked fun h => by simp [or_comm]

end Tidy

/-! ### Texts that declare names -/

/-- If the step gives a text, the text declares names as `D` says, given for `hints`. -/
def Declaring (D : List Layout → List String → Prop) (hints : List String)
    (x : Emit (List Layout)) : Prop :=
  ∀ ⦃names : Names⦄ ⦃asked held : List String⦄ ⦃p q : Printer⦄ ⦃text : List Layout⦄,
    Tidy names asked held p → x.run.run p = (.ok text, q) →
      ∃ ids, D text ids ∧ Tidy names (asked ++ hints) (held ++ ids) q

namespace Declaring

variable {D : List Layout → List String → Prop} {hints : List String} {hint : String}

theorem pure {text : List Layout} (nothing : D text []) : Declaring D [] (pure text) := by
  intro names asked held p q text' tidy ran
  cases ran
  exact ⟨[], nothing, by simpa using tidy⟩

/-- A step that only adds to the printer may come first. -/
theorem after {x : Emit α} {k : α → Emit (List Layout)} (first : OnlyAdds True x.run)
    (rest : ∀ a, Declaring D hints (k a)) : Declaring D hints (x >>= k) := by
  intro names asked held p q text tidy ran
  obtain ⟨a, between, started, ran⟩ := run_bind_eq_ok ran
  have adds := first p
  rw [started] at adds
  exact rest a (tidy.adds adds) ran

/-- Where nothing is printed, nothing is declared. -/
theorem throw_bind (f : Fault) (k : α → Emit (List Layout)) :
    Declaring D hints (throw f >>= k) := by
  intro names asked held p q text _ failed
  cases failed

/-- A name that is asked for is the first one to be declared. -/
theorem claim {k : String → Emit (List Layout)}
    (rest : ∀ name, Legal name → Declaring (fun text ids => D text (name :: ids)) hints (k name)) :
    Declaring D (hint :: hints) (liftM (claim hint) >>= k) := by
  intro names asked held p q text tidy ran
  obtain ⟨ids, declared, tidy⟩ := rest _ (p.used.legal_free hint) (tidy.claim hint) ran
  exact ⟨p.used.free hint :: ids, declared, by simpa using tidy⟩

/-- A hint that is made from a legal name and a number is no unlisted word, so it need not be
remembered. -/
theorem claim_numbered {k : String → Emit (List Layout)} {stem : String} {i : Nat}
    (legal : Legal (stem ++ toString i))
    (rest : ∀ name, Declaring (fun text ids => D text (name :: ids)) hints (k name)) :
    Declaring D hints (liftM (Verilog.claim (stem ++ toString i)) >>= k) := by
  intro names asked held p q text tidy ran
  obtain ⟨ids, declared, tidy⟩ := Declaring.claim (fun name _ => rest name) tidy ran
  refine ⟨ids, declared, tidy.same, ?_⟩
  have plain : legalize (stem ++ toString i) ∉ unlisted := by
    rw [legalize_of_legal legal]
    exact append_toString_not_mem_unlisted stem i
  have first : ∀ h, h ∈ asked ++ (stem ++ toString i) :: hints ↔
      h ∈ (stem ++ toString i) :: (asked ++ hints) := fun h => List.perm_middle.mem_iff
  exact (tidy.taken.congr_asked first).forget plain

/-- Texts one after the other declare their names one after the other. -/
theorem mapM {f : γ → Emit (List Layout)} {D : γ → List Layout → List String → Prop}
    (hints : γ → List String) {xs : List γ} (each : ∀ x ∈ xs, Declaring (D x) (hints x) (f x))
    {names : Names} {asked held : List String} {p q : Printer} {texts : List (List Layout)}
    (tidy : Tidy names asked held p) (ran : (xs.mapM f).run.run p = (.ok texts, q)) :
    ∃ declared : List (List Layout × List String), texts = declared.map (·.1) ∧
      List.Forall₂ (fun x d => D x d.1 d.2) xs declared ∧
      Tidy names (asked ++ xs.flatMap hints) (held ++ declared.flatMap (·.2)) q := by
  induction xs generalizing asked held p texts with
  | nil =>
    cases ran
    exact ⟨[], rfl, .nil, by simpa using tidy⟩
  | cons x xs ih =>
    rw [List.mapM_cons] at ran
    obtain ⟨text, between, first, ran⟩ := run_bind_eq_ok ran
    obtain ⟨more, after, rest, ended⟩ := run_bind_eq_ok ran
    cases ended
    obtain ⟨ids, declares, tidy⟩ := each x List.mem_cons_self tidy first
    obtain ⟨declared, rfl, all, tidy⟩ :=
      ih (fun y hy => each y (List.mem_cons_of_mem _ hy)) tidy rest
    exact ⟨(text, ids) :: declared, rfl, .cons declares all, by simpa using tidy⟩

end Declaring

/-! ### Cells -/

/-- The declaration of a memory's words. -/
def wordsLine (m : Memory) (name : String) : Layout :=
  .line s!"reg {shapeText (.unsigned m.width)}{name}[0:{max m.depth 1 - 1}];"

/-- The declaration of the register behind a clocked read. -/
def registerLine (m : Memory) (p : Memory.Port) (name : String) : Layout :=
  let width := if p.mode = .writeFirst then m.addressWidth else m.width
  .line s!"reg {shapeText (.unsigned width)}{name};"

/-- The text of an instance up to its connections. -/
def instanceHead (i : Instance) (name : String) : List Layout :=
  let settings := i.items.filterMap setting?
  if settings.isEmpty then [.line s!"{i.of} {name} ("]
  else Layout.block s!"{i.of} #(" (Layout.commas settings) s!") {name} ("

/-- A clocked read declares a register, and no other port of a memory declares anything. -/
def DeclaresRegister (m : Memory) (p : Memory.Port) (text : List Layout) (ids : List String) :
    Prop :=
  if p.asyncRead then ids = [] else ∃ name rest, text = registerLine m p name :: rest ∧ ids = [name]

/-- The names that the text of a cell declares, each with the line that does so. -/
inductive Declares : Cell.Kind → List Layout → List String → Prop
  | inst (i : Instance) (name : String) (rest : List Layout) :
    Declares (.inst i) (instanceHead i name ++ rest) [name]
  | memory (m : Memory) (name : String) (init : List Layout)
    (ports : List (List Layout × List String))
    (registers : List.Forall₂ (fun p d => DeclaresRegister m p d.1 d.2) m.ports ports) :
    Declares (.memory m) (wordsLine m name :: init ++ ports.flatMap (·.1))
      (name :: ports.flatMap (·.2))
  | tristate (t : Tristate) (text : List Layout) : Declares (.tristate t) text []
  | directive (d : Directive) (text : List Layout) : Declares (.directive d) text []

/-- What a cell asks to be called. -/
def hintsOf : Cell.Kind → List String
  | .inst i => [i.name.getD (lowered i.of)]
  | .memory m => [m.name]
  | _ => []

theorem lift_bind (x : Print α) (k : α → Print β) :
    (liftM (x >>= k) : Emit β) = liftM x >>= fun a => liftM (k a) := rfl

theorem lift_pure (a : α) : (liftM (pure a : Print α) : Emit α) = pure a := rfl

theorem declaring_readRegister {D : List Layout → List String → Prop} {hints : List String}
    {m : Memory} {p : Memory.Port} {index : Nat} {name adr : String}
    {k : String × Layout × String → Emit (List Layout)} (legal : Legal name)
    (rest : ∀ reg update, Declaring (fun text ids => D text (reg :: ids)) hints
      (k (reg, registerLine m p reg, update))) :
    Declaring D hints (liftM (readRegister m p index name adr) >>= k) := by
  -- Both kinds of register are called after the memory, with the number of the port at the end.
  unfold readRegister
  by_cases mode : p.mode = .writeFirst
  · have line (reg : String) : registerLine m p reg =
        .line s!"reg {shapeText (.unsigned m.addressWidth)}{reg};" := by
      simp only [registerLine, if_pos mode]
    simp only [line] at rest
    simp only [if_pos mode, lift_bind, lift_pure, bind_assoc, pure_bind]
    exact .claim_numbered (legal.numbered (by decide) (by decide) index) fun reg => rest reg _
  · have line (reg : String) : registerLine m p reg =
        .line s!"reg {shapeText (.unsigned m.width)}{reg};" := by
      simp only [registerLine, if_neg mode]
    simp only [line] at rest
    simp only [if_neg mode, lift_bind, lift_pure, bind_assoc, pure_bind]
    exact .claim_numbered (legal.numbered (by decide) (by decide) index) fun reg => rest reg _

theorem declaring_memoryPortText (domains : List ClockDomain) (m : Memory) {name : String}
    (legal : Legal name) (p : Memory.Port) (index : Nat) :
    Declaring (DeclaresRegister m p) [] (memoryPortText domains m name p index) := by
  refine .after (onlyAdds_nameOf p.adr).emit_lift fun adr => ?_
  refine .after (onlyAdds_nameOf p.datR).emit_lift fun datR => ?_
  cases async : p.asyncRead with
  | true =>
    have nothing (text : List Layout) : DeclaresRegister m p text [] := by
      rw [DeclaresRegister, if_pos async]
    cases p.clocked with
    | false => exact .pure (nothing _)
    | true =>
      refine .after (.emit_except _) fun d => .after (onlyAdds_nameOf d.clk).emit_lift fun clk => ?_
      exact .after (onlyAdds_writeText name adr).emit_lift fun _ => .pure (nothing _)
  | false =>
    -- A read that is not asynchronous is clocked, and its register is the first to be declared.
    have clocked : p.clocked = true := by
      rw [Memory.Port.clocked, async]
      rfl
    rw [clocked]
    refine .after (.emit_except _) fun d => .after (onlyAdds_nameOf d.clk).emit_lift fun clk => ?_
    refine declaring_readRegister legal fun reg update => ?_
    refine .after (onlyAdds_writeText name adr).emit_lift fun writes => ?_
    refine .after (onlyAdds_readGates).emit_lift fun gates => .pure ?_
    rw [DeclaresRegister, async]
    exact ⟨reg, _, rfl, rfl⟩

theorem declaring_memoryText (domains : List ClockDomain) (style : MemoryInit) (m : Memory) :
    Declaring (Declares (.memory m)) [m.name] (memoryText domains style m) := by
  refine .claim fun name legal => ?_
  refine .after (onlyAdds_initText style name).emit_lift fun init => ?_
  intro names asked held p q text tidy ran
  obtain ⟨texts, _, printed, ended⟩ := run_bind_eq_ok ran
  cases ended
  obtain ⟨declared, rfl, each, tidy⟩ := Declaring.mapM (D := fun p => DeclaresRegister m p.1)
    (fun _ => []) (fun p _ => declaring_memoryPortText domains m legal p.1 p.2) tidy printed
  have registers : List.Forall₂ (fun p d => DeclaresRegister m p d.1 d.2)
      (m.ports.zipIdx.map Prod.fst) declared := List.forall₂_map_left_iff.mpr each
  have none : m.ports.zipIdx.flatMap (fun _ => ([] : List String)) = [] :=
    List.flatMap_eq_nil_iff.mpr fun _ _ => rfl
  rw [List.zipIdx_map_fst] at registers
  rw [none] at tidy
  exact ⟨_, .memory m name init declared registers, tidy⟩

theorem declaring_instanceText (i : Instance) :
    Declaring (Declares (.inst i)) [i.name.getD (lowered i.of)] (liftM (instanceText i)) := by
  simp only [instanceText, lift_bind, lift_pure]
  refine .claim fun name _ => ?_
  refine .after (onlyAdds_connections fun _ _ => .inl trivial).emit_lift fun _ => .pure ?_
  rw [List.append_assoc, List.append_assoc]
  exact .inst i name _

/-- The text of a cell, with an empty line behind it. -/
def DeclaresCell (c : Cell) (text : List Layout) (ids : List String) : Prop :=
  ∃ body, text = body ++ [.newline] ∧ Declares c.kind body ids

theorem declaring_spaced {c : Cell} {hints : List String} {x : Emit (List Layout)}
    (h : Declaring (Declares c.kind) hints x) :
    Declaring (DeclaresCell c) hints (x >>= fun body => pure (body ++ [.newline])) := by
  intro names asked held p q text tidy ran
  obtain ⟨body, _, printed, ended⟩ := run_bind_eq_ok ran
  cases ended
  obtain ⟨ids, declares, tidy⟩ := h tidy printed
  exact ⟨ids, ⟨body, rfl, declares⟩, tidy⟩

theorem declaring_cellText (domains : List ClockDomain) (style : MemoryInit) (c : Cell) :
    Declaring (DeclaresCell c) (hintsOf c.kind) (cellText domains style c) := by
  obtain ⟨id, kind⟩ := c
  cases kind with
  | inst i => exact declaring_spaced (declaring_instanceText i)
  | memory m => exact declaring_spaced (declaring_memoryText domains style m)
  | tristate t =>
    refine .after (onlyAdds_tristateText fun _ _ => .inl trivial).emit_lift fun body =>
      .pure ⟨body, rfl, ?_⟩
    exact .tristate t body
  | directive d =>
    refine .after (onlyAdds_directiveText).emit_lift fun body => .pure ⟨body, rfl, ?_⟩
    exact .directive d body
  | multiReg | resetSync | diffInput | diffOutput => exact .throw_bind _ _

/-! ### Whole modules -/

/-- All that is asked for in a module beside the names of temporaries and of registers. -/
def allHints (n : Netlist) (ports : List Port) : List String :=
  (hinted n ports).map Prod.snd ++ n.cells.values.flatMap fun c => hintsOf c.kind

/-- What a text is made of that was printed with given names. -/
theorem writeWith_eq_ok {n : Netlist} {ports : List Port} {config : Config.Codegen} {names : Names}
    {used : Scope} {source : String} {files : List DataFile}
    (ok : writeWith n ports config names used = .ok (source, files)) :
    ∃ comb rest printer,
      (bodyText n (namingOrder n ports) config.memoryInit).run.run { names, used } =
        (.ok (comb, rest), printer) ∧
      source = Layout.render (openingText n ports config names
        ++ (printer.temps.map fun t => Layout.line s!"wire {shapeText t.shape}{t.name};")
        ++ [.newline] ++ (printer.temps.map fun t => Layout.line s!"assign {t.name} = {t.text};")
        ++ comb ++ [.newline] ++ rest ++ [.line "endmodule"]) := by
  rw [writeWith] at ok
  revert ok
  rcases StateT.run (bodyText n (namingOrder n ports) config.memoryInit).run { names, used }
    with ⟨result, printer⟩
  dsimp only
  split
  · intro ok
    cases ok
  · rcases result with fault | ⟨comb, rest⟩ <;> intro ok
    · cases ok
    · obtain ⟨same, -⟩ := Prod.mk.inj (Except.ok.inj ok)
      exact ⟨comb, rest, printer, rfl, same.symm⟩

/-- The names of all signals, of temporaries, and those that cells declare. -/
def identifiers (names : Names) (temps : List Temp) (cells : List (List Layout × List String)) :
    List String :=
  names.values ++ temps.map (·.name) ++ cells.flatMap (·.2)

/-- The names of a module in its text, which holds the given temporaries and texts of cells. -/
structure Identified (n : Netlist) (ports : List Port) (config : Config.Codegen) (w : Written)
    (temps : List Temp) (cells : List (List Layout × List String)) : Prop where
  listed : ∀ p ∈ ports, ∃! name, w.names.get? p.signal = some name
  mentioned : NetlistWithin (fun s => ∃! name, w.names.get? s = some name) n
  text : ∃ comb sync, w.source = Layout.render (openingText n ports config w.names
    ++ (temps.map fun t => Layout.line s!"wire {shapeText t.shape}{t.name};")
    ++ [.newline] ++ (temps.map fun t => Layout.line s!"assign {t.name} = {t.text};")
    ++ comb ++ [.newline] ++ (sync ++ cells.flatMap (·.1)) ++ [.line "endmodule"])
  declared : List.Forall₂ (fun c d => DeclaresCell c d.1 d.2) n.cells.values cells
  distinct : (identifiers w.names temps cells).Nodup
  legal : ∀ name ∈ identifiers w.names temps cells, Identifier name
  /-- The reserved words among the names are those that are not listed and that a hint reads as. -/
  words : ∀ word ∈ reserved, word ∈ identifiers w.names temps cells ↔
    word ∈ unlisted ∧ ∃ hint ∈ allHints n ports, legalize hint = word

theorem exists_unique_name {n : Netlist} {ports : List Port} {config : Config.Codegen} {w : Written}
    (ok : write n ports config = .ok w) {s : Signal} (named : s ∈ namingOrder n ports) :
    ∃! name, w.names.get? s = some name := by
  obtain ⟨name, found⟩ := Option.isSome_iff_exists.mp ((named_of_write ok s).mpr named)
  refine ⟨name, found, fun other same => ?_⟩
  exact Option.some.inj (same.symm.trans found)

theorem tidy_start (n : Netlist) (ports : List Port) :
    Tidy (Names.assign ∅ (hinted n ports)).1 ((hinted n ports).map Prod.snd) []
      { names := (Names.assign ∅ (hinted n ports)).1
        used := (Names.assign ∅ (hinted n ports)).2 } where
  same := rfl
  taken := by
    have signals := taken_assign (fun s => (hints n).getD s s.name) (namingOrder n ports)
    simpa [hinted, Function.comp_def] using signals

/-- All that is printed of a module's body, and the names in use behind it. -/
theorem tidy_bodyText {n : Netlist} {order : List Signal} {style : MemoryInit} {names : Names}
    {asked : List String} {p printer : Printer} {comb rest : List Layout}
    (tidy : Tidy names asked [] p)
    (ran : (bodyText n order style).run.run p = (.ok (comb, rest), printer)) :
    ∃ sync, ∃ cells : List (List Layout × List String), rest = sync ++ cells.flatMap (·.1) ∧
      List.Forall₂ (fun c d => DeclaresCell c d.1 d.2) n.cells.values cells ∧
      Tidy names (asked ++ n.cells.values.flatMap fun c => hintsOf c.kind) (cells.flatMap (·.2))
        printer := by
  unfold bodyText at ran
  obtain ⟨comb, afterComb, first, ran⟩ := run_bind_eq_ok ran
  obtain ⟨sync, afterSync, second, ran⟩ := run_bind_eq_ok ran
  obtain ⟨text, afterCells, third, ended⟩ := run_bind_eq_ok ran
  cases ended
  obtain ⟨texts, _, each, ended⟩ := run_bind_eq_ok third
  cases ended
  -- Up to the cells there are no other names to take than those of temporaries.
  have assigned := (onlyAdds_combText (n := n) (T := True) (.inl trivial) order).emit_lift p
  rw [first] at assigned
  have clocked := onlyAdds_syncText (n := n) (T := True) (fun _ _ => .inl trivial) afterComb
  rw [second] at clocked
  obtain ⟨cells, rfl, declared, tidy⟩ := Declaring.mapM (fun c => hintsOf c.kind)
    (fun c _ => declaring_cellText n.domains style c) ((tidy.adds assigned).adds clocked) each
  exact ⟨sync, cells, rfl, declared, tidy⟩

/-- Whenever a module is written, every signal that the netlist mentions and every port has one
name; these names, those of temporaries, instances, memories and registers of memories are
identifiers and differ from each other, whatever they are to be called. The only reserved words
among them are unlisted ones that some hint reads as. In any scope the search for a number behind a
taken name ends at the first that is free. -/
theorem write_identifiers (n : Netlist) (ports : List Port) (config : Config.Codegen) :
    (∀ w, write n ports config = .ok w → ∃ temps cells, Identified n ports config w temps cells) ∧
    ∀ (used : Scope) (base : String), ∃ i ≤ used.toList.length,
      used.numbered base = candidate base i ∧ candidate base i ∉ used ∧
        ∀ j < i, candidate base j ∈ used := by
  refine ⟨fun w ok => ?_, Scope.numbered_spec⟩
  obtain ⟨names, text⟩ := write_eq_ok ok
  obtain ⟨comb, rest, printer, ran, source⟩ := writeWith_eq_ok text
  have start := tidy_start n ports
  rw [← names] at start
  obtain ⟨sync, cells, rfl, declared, tidy⟩ := tidy_bodyText start ran
  have taken : Taken (allHints n ports) (identifiers w.names printer.temps cells) printer.used :=
    tidy.taken
  refine ⟨printer.temps, cells, ?_⟩
  exact {
    listed := fun p hp =>
      exists_unique_name ok (mem_namingOrder.mpr (.inl (List.mem_map_of_mem hp)))
    mentioned := netlistWithin_iff.mpr fun s hs =>
      exists_unique_name ok (mem_namingOrder.mpr (.inr hs))
    text := ⟨comb, sync, source⟩
    declared
    distinct := taken.distinct
    legal := fun name member => (taken.legal name member).toIdentifier
    words := fun word listed => taken.reserved_iff listed }

/-! ### A crowded module -/

open Signal (wire)

/-- Two signals, a memory and a signal with a number behind its name compete for one name, a
temporary meets a signal called like one, and no character of an instance's name can stay. -/
def crowded : Netlist where
  comb := [.assign (.signal (wire 1 "x" 2))
    (.slice (.binary .add (.signal (wire 0 "x" 2)) (.signal (wire 2 "x_1" 2))) 0 2)]
  cells := .ofList
    [(⟨0⟩, ⟨⟨0⟩, .memory { name := "x", width := 2, depth := 4, ports :=
      [⟨"read", wire 0 "x" 2, wire 3 "_tmp" 2, none, none, .readFirst, false, 0, "sys"⟩] }⟩),
    (⟨1⟩, ⟨⟨1⟩, .inst { of := "PAD", name := some "é", items := [] }⟩)]
  domains := [⟨"sys", wire 4 "clk" 2, none, false⟩]

def crowdedPorts : List Port := [⟨wire 0 "x" 2, .input⟩, ⟨wire 1 "x" 2, .output⟩]

theorem crowded_identified :
    ∃ w, write crowded crowdedPorts {} = .ok w ∧
      w.names.values = ["x", "x_1", "x_1_1", "_tmp", "sys_clk"] ∧
      ∃ temps cells, Identified crowded crowdedPorts {} w temps cells := by
  have names : (write crowded crowdedPorts {}).toOption.map (·.names.values) =
      some ["x", "x_1", "x_1_1", "_tmp", "sys_clk"] := by decide +kernel
  cases ok : write crowded crowdedPorts {} with
  | error halt =>
    rw [ok] at names
    cases names
  | ok w =>
    rw [ok] at names
    exact ⟨w, rfl, Option.some.inj names, (write_identifiers crowded crowdedPorts {}).1 w ok⟩

/-! ### Reserved words that are not listed -/

/-- A module that passes an input on, which is called like a reserved word. -/
def passing : Netlist :=
  { comb := [.assign (.signal (wire 1 "b" 2)) (.signal (wire 0 "include" 2))] }

def passingPorts : List Port := [⟨wire 0 "include" 2, .input⟩, ⟨wire 1 "b" 2, .output⟩]

/-- The reserved word is declared as it stands. -/
theorem include_declared :
    "include" ∈ reserved ∧
      (write passing passingPorts {}).toOption.map (·.names.values) = some ["include", "b"] ∧
      (write passing passingPorts {}).toOption.map (·.source) =
        some ("/* Machine-generated using kiln */\nmodule top(\n\tinput [1:0] include,\n"
          ++ "\toutput [1:0] b\n);\n\n\nassign b = include;\n\nendmodule\n") := by
  decide +kernel

end Gateware.Verilog
