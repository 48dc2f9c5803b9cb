import Gateware.Proofs.Verilog.Printing

/-!
# Written modules

Writing a module goes in two steps: signals are named, and then everything is printed with these
names. The second step is looked at by itself here.

## Main results

* `writeWith_renumber`: what is printed depends on the names of the signals that the netlist
  mentions and of its ports, and on no number.
* `write_renumber`: a renumbered netlist is written as the same text.
-/
namespace Gateware.Verilog

variable {T : Prop} {S : Signal → Prop} {r : Numbering}

/-- The assignments, and the blocks and cells behind them. -/
def bodyText (n : Netlist) (order : List Signal) (style : MemoryInit) :
    Emit (List Layout × List Layout) := do
  let comb ← combText n order
  let sync ← syncText n
  let cells ← cellsText n style
  return (comb, sync ++ cells)

/-- The signals in the order they are named, with their hints. -/
def hinted (n : Netlist) (ports : List Port) : List (Signal × String) :=
  (namingOrder n ports).map fun s => (s, (hints n).getD s s.name)

/-- All that stands before the temporaries, with given names. -/
def openingText (n : Netlist) (ports : List Port) (config : Config.Codegen) (names : Names) :
    List Layout :=
  let registers : OrdSet Signal := Stmt.assigned n.sync.values.flatten
  let listed := ports.map (·.signal)
  let header := (if config.header then [Layout.line "/* Machine-generated using kiln */"] else [])
    ++ Layout.block s!"module {config.name}("
      (Layout.commas (ports.map (portText registers names))) ");"
    ++ [.newline]
  let declarations := ((namingOrder n ports).filter (· ∉ listed)).map
    (declaration config.asicSyntax registers n.driven names)
  let starts := if config.asicSyntax then [] else
    (listed.filter (· ∈ registers)).map fun s =>
      Layout.line s!"initial {names.name s} = {resetText s};"
  header ++ declarations ++ starts

/-- The source and the files beside it, printed with given names. -/
def writeWith (n : Netlist) (ports : List Port) (config : Config.Codegen) (names : Names)
    (used : Scope) : Except Halt (String × List DataFile) := do
  let (result, printer) :=
    (bodyText n (namingOrder n ports) config.memoryInit).run.run { names, used }
  if printer.overflow then throw .overflow
  let (comb, rest) ← result.mapError .fault
  let wires := printer.temps.map fun t => Layout.line s!"wire {shapeText t.shape}{t.name};"
  let temps := printer.temps.map fun t => Layout.line s!"assign {t.name} = {t.text};"
  return (Layout.render (openingText n ports config names ++ wires ++ [.newline]
    ++ temps ++ comb ++ [.newline] ++ rest ++ [.line "endmodule"]), printer.files)

/-- A module is written with the names that its signals are given first. -/
theorem write_eq (n : Netlist) (ports : List Port) (config : Config.Codegen) :
    write n ports config =
      (writeWith n ports config (Names.assign ∅ (hinted n ports)).1
        (Names.assign ∅ (hinted n ports)).2).map
        fun w => ⟨w.1, w.2, (Names.assign ∅ (hinted n ports)).1⟩ := by
  rw [write, writeWith, hinted]
  rcases Names.assign ∅ ((namingOrder n ports).map fun s => (s, (hints n).getD s s.name))
    with ⟨names, used⟩
  simp only [bodyText]
  generalize StateT.run (ExceptT.run _) _ = ended
  obtain ⟨result, printer⟩ := ended
  cases stopped : printer.overflow <;> obtain fault | ⟨comb, rest⟩ := result <;>
    simp only [stopped] <;> rfl

/-! ### Signals to name -/

theorem mentioned_renumber [r.Increasing] (n : Netlist) :
    mentioned (n.renumber r) = (mentioned n).image (Signal.renumber r) := by
  rw [mentioned, mentioned, ← OrdSet.ofList_map Signal.keeps_renumber, Netlist.exprs_renumber,
    Netlist.values_cells_renumber]
  simp only [Netlist.renumber, List.map_append, List.flatMap_map, List.map_flatMap,
    Cell.ports_renumber, Cell.Port.renumber, Expr.mentions_renumber, ClockDomain.signals_renumber]

theorem namingOrder_renumber [r.Increasing] (n : Netlist) (ports : List Port) :
    namingOrder (n.renumber r) (ports.map (Port.renumber r)) =
      (namingOrder n ports).map (Signal.renumber r) := by
  have inj : Function.Injective (Signal.renumber r) := Signal.renumber_injective
  simp only [namingOrder, Port.signals_renumber, mentioned_renumber,
    OrdSet.toList_image Signal.keeps_renumber, List.filter_map, List.map_append]
  simp only [Function.comp_def, List.mem_map_of_injective inj]

theorem hints_renumber [r.Increasing] (n : Netlist) :
    hints (n.renumber r) = (hints n).rekey (Signal.renumber r) id := by
  rw [hints, hints, ← OrdMap.ofList_rekey Signal.keeps_renumber, Netlist.renumber, List.flatMap_map,
    List.map_flatMap]
  congr 2
  funext d
  obtain ⟨name, clk, rst, asyncReset⟩ := d
  cases rst <;> rfl

theorem hinted_renumber [r.Increasing] (n : Netlist) (ports : List Port) :
    hinted (n.renumber r) (ports.map (Port.renumber r)) =
      (hinted n ports).map fun h => (h.1.renumber r, h.2) := by
  rw [hinted, hinted, namingOrder_renumber, hints_renumber, List.map_map, List.map_map]
  congr 1
  funext s
  exact congrArg _ (OrdMap.getD_rekey (g := id) Signal.keeps_renumber (hints n) s s.name)

/-- Name one signal, unless it has a name. -/
def Names.give (acc : Names × Scope) (h : Signal × String) : Names × Scope :=
  if acc.1.contains h.1 then acc
  else (acc.1.insert h.1 (acc.2.free h.2), acc.2.insert (acc.2.free h.2))

theorem Names.assign_eq (used : Scope) (hints : List (Signal × String)) :
    assign used hints = hints.foldl give (∅, used) := rfl

/-- Names under other numbers, with the same texts in use. -/
def Names.renumber (r : Numbering) (acc : Names × Scope) : Names × Scope :=
  (OrdMap.rekey (Signal.renumber r) id acc.1, acc.2)

theorem give_renumber [r.Increasing] (acc : Names × Scope) (h : Signal × String) :
    Names.give (Names.renumber r acc) (h.1.renumber r, h.2) =
      Names.renumber r (Names.give acc h) := by
  have known : (Names.renumber r acc).1.contains (h.1.renumber r) = acc.1.contains h.1 :=
    OrdMap.contains_rekey Signal.keeps_renumber acc.1 h.1
  simp only [Names.give, known]
  split
  · rfl
  · exact congrArg (·, _) (OrdMap.insert_rekey Signal.keeps_renumber acc.1 h.1 (acc.2.free h.2))

/-- The same signals are named the same way. -/
theorem assign_renumber [r.Increasing] (used : Scope) (hints : List (Signal × String)) :
    Names.assign used (hints.map fun h => (h.1.renumber r, h.2)) =
      Names.renumber r (Names.assign used hints) := by
  rw [Names.assign_eq, Names.assign_eq, List.foldl_map]
  change hints.foldl _ (Names.renumber r (∅, used)) = _
  exact List.foldl_hom (Names.renumber r) give_renumber

/-! ### Lines with names -/

/-- Names of the signals of `S` that agree up to new numbers. -/
def NamedAlike (S : Signal → Prop) (r : Numbering) (names names' : Names) : Prop :=
  ∀ s, S s → names'.name (s.renumber r) = names.name s

section Lines

variable [r.Increasing] {names names' : Names} (named : NamedAlike S r names names')
  (registers driven : OrdSet Signal)

include named

theorem portText_renumber {p : Port} (hp : S p.signal) :
    portText (registers.image (Signal.renumber r)) names' (p.renumber r) =
      portText registers names p := by
  simp only [portText, Port.renumber, Signal.shape_renumber, named p.signal hp,
    OrdSet.mem_image Signal.keeps_renumber]

theorem declaration_renumber (asic : Bool) {s : Signal} (hs : S s) :
    declaration asic (registers.image (Signal.renumber r)) (driven.image (Signal.renumber r)) names'
        (s.renumber r) =
      declaration asic registers driven names s := by
  simp only [declaration, Signal.shape_renumber, named s hs,
    OrdSet.mem_image Signal.keeps_renumber]
  rfl

end Lines

/-! ### The body of a module -/

/-- All signals that a netlist mentions, and its clocks and resets, are in a set. -/
structure NetlistWithin (S : Signal → Prop) (n : Netlist) : Prop where
  stmts : Stmt.AllWithin S (Stmt.exprsOf n.stmts)
  cells : ∀ c ∈ n.cells.values, PortsWithin S c.ports
  domains : ∀ d ∈ n.domains, Within S d.signals

theorem netlistWithin_iff {n : Netlist} : NetlistWithin S n ↔ ∀ s ∈ mentioned n, S s := by
  simp only [mentioned, OrdSet.mem_ofList, List.forall_mem_append, List.forall_mem_flatMap]
  constructor
  · exact fun h => ⟨⟨h.stmts, h.cells⟩, h.domains⟩
  · exact fun h => ⟨h.1.1, h.1.2, h.2⟩

/-- The signals to name are those of the netlist and of its ports. -/
theorem NetlistWithin.namingOrder {n : Netlist} {ports : List Port} (h : NetlistWithin S n)
    (listed : ∀ p ∈ ports, S p.signal) : Within S (namingOrder n ports) := by
  intro s hs
  rcases List.mem_append.mp hs with port | other
  · obtain ⟨p, hp, rfl⟩ := List.mem_map.mp port
    exact listed p hp
  · exact netlistWithin_iff.mp h s (List.mem_filter.mp other).1

/-- Some of the statements mention no more. -/
theorem NetlistWithin.of_subset {n : Netlist} (h : NetlistWithin S n) {ss : List Stmt}
    (some : ss ⊆ n.stmts) : Stmt.AllWithin S (Stmt.exprsOf ss) := by
  intro e he
  rw [Stmt.exprsOf_eq] at he
  obtain ⟨u, hu, he⟩ := List.mem_flatMap.mp he
  apply h.stmts
  rw [Stmt.exprsOf_eq]
  exact List.mem_flatMap.mpr ⟨u, some hu, he⟩

theorem prints_combText [r.Increasing] {n : Netlist} (within : NetlistWithin S n)
    (filled : T ∨ ∀ e ∈ Stmt.exprsOf n.comb, e.Filled) {order : List Signal}
    (named : Within S order) :
    Prints T S r (combText n order) (combText (n.renumber r) (order.map (Signal.renumber r))) := by
  have comb := within.of_subset (List.subset_append_left n.comb _)
  have folded : Stmt.folded (n.renumber r).comb = (Stmt.folded n.comb).renumber r :=
    Stmt.folded_renumber n.comb
  have stops : Stmt.stopsFolding (n.renumber r).comb = Stmt.stopsFolding n.comb :=
    Stmt.stopsFolding_renumber n.comb
  unfold combText
  rw [folded, stops]
  refine (prints_watch fun stops => ?_).bind fun _ =>
    (Prints.mapM order fun s hs => ?_).bind fun _ => .pure _
  · refine filled.resolve_right fun filled => ?_
    rw [Stmt.stopsFolding_of_filled filled] at stops
    cases stops
  rw [Symbolic.renumber, OrdMap.get?_rekey Signal.keeps_renumber]
  cases found : (Stmt.folded n.comb).get? s with
  | none => exact .pure []
  | some value =>
    have shown : Shown T S value :=
      ⟨Stmt.mentions_folded n.comb comb found, Stmt.solid_folded filled found⟩
    refine (prints_assigned s.width shown).bind fun rhs => ?_
    exact (prints_nameOf (named s hs)).bind fun name => .pure _

theorem sameEmit_syncText [r.Increasing] {n : Netlist} (within : NetlistWithin S n) :
    SameEmit S r (syncText n) (syncText (n.renumber r)) := by
  unfold syncText
  rw [Netlist.entries_sync_renumber, List.filter_map]
  simp only [Function.comp_def, Stmt.isEmpty_mapExprsOf]
  refine SameEmit.bind ?_ fun _ => .pure _
  apply SameEmit.mapM
  rintro ⟨domain, ss⟩ member
  refine .domainNamed_bind fun d hd => .lift ?_
  refine (prints_clockedBlock (T := True) (within.domains d hd) ?_ (.inl trivial)).same
  apply within.of_subset
  intro u hu
  have entry := List.mem_of_mem_filter member
  exact List.mem_append_right _ (List.mem_flatten.mpr ⟨ss, List.mem_map.mpr ⟨_, entry, rfl⟩, hu⟩)

/-! The same text is printed with the numbers as they are; what it adds does not depend on them. -/

theorem onlyAdds_combText {n : Netlist} (filled : T ∨ ∀ e ∈ Stmt.exprsOf n.comb, e.Filled)
    (order : List Signal) : OnlyAdds T (combText n order) :=
  (prints_combText (r := .same) (netlistWithin_iff.mpr fun _ _ => trivial) filled
    fun _ _ => trivial).adds

theorem onlyAdds_clockedBlock (d : ClockDomain) {ss : List Stmt} (filled : T ∨ FilledBlock ss) :
    OnlyAdds T (clockedBlock d ss) :=
  (prints_clockedBlock (S := fun _ => True) (r := .same) (fun _ _ => trivial)
    (fun _ _ _ _ => trivial) filled).adds

theorem onlyAdds_syncText {n : Netlist} (filled : ∀ ss ∈ n.sync.values, T ∨ FilledBlock ss) :
    OnlyAdds T (syncText n).run := by
  refine (OnlyAdds.emit_mapM _ fun e he => ?_).emit_bind fun _ => .emit_pure _
  refine (OnlyAdds.emit_except _).emit_bind fun d => ?_
  have listed : e.2 ∈ n.sync.values := List.mem_map_of_mem (List.mem_filter.mp he).1
  exact (onlyAdds_clockedBlock d (filled e.2 listed)).emit_lift

theorem sameEmit_cellsText [r.Increasing] {n : Netlist} (within : NetlistWithin S n)
    (style : MemoryInit) : SameEmit S r (cellsText n style) (cellsText (n.renumber r) style) := by
  unfold cellsText
  rw [Netlist.values_cells_renumber]
  refine SameEmit.bind ?_ fun _ => .pure _
  apply SameEmit.mapM
  intro c hc
  exact sameEmit_cellText within.domains style c (within.cells c hc)

theorem sameEmit_bodyText [r.Increasing] {n : Netlist} (within : NetlistWithin S n)
    {order : List Signal} (named : Within S order) (style : MemoryInit) :
    SameEmit S r (bodyText n order style)
      (bodyText (n.renumber r) (order.map (Signal.renumber r)) style) := by
  have assigned := prints_combText (T := True) (r := r) within (.inl trivial) named
  refine (SameEmit.lift assigned.same).bind fun comb => ?_
  refine (sameEmit_syncText within).bind fun sync => ?_
  exact (sameEmit_cellsText within style).bind fun cells => .pure _

theorem openingText_renumber [r.Increasing] {n : Netlist} {ports : List Port}
    (within : NetlistWithin S n) (listed : ∀ p ∈ ports, S p.signal) (config : Config.Codegen)
    {names names' : Names} (named : NamedAlike S r names names') :
    openingText (n.renumber r) (ports.map (Port.renumber r)) config names' =
      openingText n ports config names := by
  -- what a line shows of a signal is its name, its shape, and whether it is a port, driven or a
  -- register; the latter are membership in lists and sets that are renumbered along
  have inj : Function.Injective (Signal.renumber r) := Signal.renumber_injective
  have order : Within S (namingOrder n ports) := within.namingOrder listed
  have registers : Stmt.assigned (n.renumber r).sync.values.flatten =
      (Stmt.assigned n.sync.values.flatten).image (Signal.renumber r) := by
    rw [Netlist.values_sync_renumber, ← Stmt.assigned_renumberOf, Stmt.renumberOf_eq_map,
      ← List.map_flatten]
  have header : (ports.map (Port.renumber r)).map
        (portText ((Stmt.assigned n.sync.values.flatten).image (Signal.renumber r)) names') =
      ports.map (portText (Stmt.assigned n.sync.values.flatten) names) := by
    rw [List.map_map]
    exact List.map_congr_left fun p hp => portText_renumber named _ (listed p hp)
  have declared : ((namingOrder n ports).map (Signal.renumber r)).filter
        (· ∉ (ports.map (·.signal)).map (Signal.renumber r)) =
      ((namingOrder n ports).filter (· ∉ ports.map (·.signal))).map (Signal.renumber r) := by
    rw [List.filter_map]
    simp only [Function.comp_def, List.mem_map_of_injective inj]
  have started : ((ports.map (·.signal)).map (Signal.renumber r)).filter
        (· ∈ (Stmt.assigned n.sync.values.flatten).image (Signal.renumber r)) =
      ((ports.map (·.signal)).filter (· ∈ Stmt.assigned n.sync.values.flatten)).map
        (Signal.renumber r) := by
    rw [List.filter_map]
    simp only [Function.comp_def, OrdSet.mem_image Signal.keeps_renumber]
  simp only [openingText, registers, header, Netlist.driven_renumber, namingOrder_renumber,
    Port.signals_renumber, declared, started]
  rw [List.map_map, List.map_map]
  congr 2
  · exact List.map_congr_left fun s hs =>
      declaration_renumber named _ _ _ (order s (List.mem_filter.mp hs).1)
  · refine List.map_congr_left fun s hs => ?_
    obtain ⟨p, hp, rfl⟩ := List.mem_map.mp (List.mem_filter.mp hs).1
    exact congrArg (fun name => Layout.line s!"initial {name} = {resetText p.signal};")
      (named p.signal (listed p hp))

/-- What is printed depends on the names of the signals of the netlist and of its ports alone. -/
theorem writeWith_renumber [r.Increasing] {n : Netlist} {ports : List Port}
    (within : NetlistWithin S n) (listed : ∀ p ∈ ports, S p.signal) (config : Config.Codegen)
    {names names' : Names} (named : NamedAlike S r names names') (used : Scope) :
    writeWith (n.renumber r) (ports.map (Port.renumber r)) config names' used =
      writeWith n ports config names used := by
  obtain ⟨result, printer⟩ := sameEmit_bodyText within (within.namingOrder listed) config.memoryInit
    { names, used } { names := names', used } ⟨named, rfl, rfl, rfl, rfl, rfl⟩
  rw [writeWith, writeWith, namingOrder_renumber, openingText_renumber within listed config named]
  -- of the printers that the bodies leave only temporaries and data files are used
  revert result printer
  generalize (bodyText n (namingOrder n ports) config.memoryInit).run.run { names, used } = first
  generalize StateT.run (bodyText (n.renumber r) _ _).run _ = second
  obtain ⟨result, printer⟩ := first
  obtain ⟨result', printer'⟩ := second
  rintro rfl alike
  have temps : printer'.temps = printer.temps := alike.temps
  have files : printer'.files = printer.files := alike.files
  have overflow : printer'.overflow = printer.overflow := alike.overflow
  simp only [temps, files, overflow]
  cases result <;> rfl

/-- A renumbered netlist is written as the same text, with the same names. -/
theorem write_renumber [r.Increasing] (n : Netlist) (ports : List Port) (config : Config.Codegen) :
    write (n.renumber r) (ports.map (Port.renumber r)) config =
      (write n ports config).map fun w =>
        { w with names := OrdMap.rekey (Signal.renumber r) id w.names } := by
  have named : NamedAlike (fun _ => True) r (Names.assign ∅ (hinted n ports)).1
      (OrdMap.rekey (Signal.renumber r) id (Names.assign ∅ (hinted n ports)).1) :=
    fun s _ => OrdMap.getD_rekey Signal.keeps_renumber _ s s.name
  have within : NetlistWithin (fun _ => True) n := netlistWithin_iff.mpr fun _ _ => trivial
  rw [write_eq, write_eq, hinted_renumber, assign_renumber, Names.renumber,
    writeWith_renumber within (fun _ _ => trivial) config named]
  cases writeWith n ports config _ _ <;> rfl

end Gateware.Verilog
