import Gateware.Proofs.Verilog.Module

/-!
# When a module can be written

Writing fails for two reasons only: a cell that no text stands for, and a clock domain that is not
declared. It stops where bits are to be taken from an expression that has none. All other steps of
it give a result whatever has been printed before.

## Main results

* `Emittable.write_ok`: a netlist whose cells are native and whose clocked parts have their domains
  declared is written, whatever its ports, unless an expression without bits makes writing stop.
* `named_of_write`, `writeWith_congr`: every signal of the netlist and every port gets a name, and
  no other name is ever asked for.

## Proof strategy

`Emits` holds of the steps that do not fail, and that stop only if they may; it is closed under
everything that text is put together with, and the two failing steps are under it where their
conditions hold. What is printed without a chance to fail (`Calm`) only adds to the printer or takes
a name.
-/
namespace Gateware.Verilog

variable {T : Prop} {α β γ : Type}

/-! ### Steps that cannot fail -/

/-- The step does not stop, unless `T`. -/
def Calm (T : Prop) (x : Print α) : Prop :=
  ∀ p, (x.run p).2.overflow = true → p.overflow = true ∨ T

theorem Adds.overflow {p q : Printer} (h : Adds T p q) (stopped : q.overflow = true) :
    p.overflow = true ∨ T := by
  induction h with
  | refl => exact .inl stopped
  | temp _ _ _ ih | file _ _ ih => exact ih stopped
  | stop may => exact .inr may

theorem OnlyAdds.calm {x : Print α} (h : OnlyAdds T x) : Calm T x := fun p => (h p).overflow

namespace Calm

theorem bind {x : Print α} {k : α → Print β} (first : Calm T x) (rest : ∀ a, Calm T (k a)) :
    Calm T (x >>= k) := fun p stopped => (rest _ _ stopped).elim (first p) .inr

theorem claim (hint : String) : Calm T (claim hint) := fun _ => .inl

end Calm

theorem calm_nameOf (s : Signal) : Calm T (nameOf s) := (onlyAdds_nameOf s).calm

theorem calm_instanceText {i : Instance}
    (filled : ∀ p ∈ (Cell.Kind.inst i).ports, T ∨ p.value.Filled) : Calm T (instanceText i) := by
  refine (Calm.claim _).bind fun name => ?_
  exact (onlyAdds_connections filled).calm.bind fun _ => (OnlyAdds.pure _).calm

theorem calm_readRegister (m : Memory) (p : Memory.Port) (index : Nat) (name adr : String) :
    Calm T (readRegister m p index name adr) := by
  unfold readRegister
  split
  · exact (Calm.claim _).bind fun _ => (OnlyAdds.pure _).calm
  · exact (Calm.claim _).bind fun _ => (OnlyAdds.pure _).calm

/-- The step gives a result from every state of the printer, and stops only if `T`. -/
def Emits (T : Prop) (x : Emit α) : Prop :=
  ∀ p, ∃ a q, x.run.run p = (.ok a, q) ∧ (q.overflow = true → p.overflow = true ∨ T)

namespace Emits

theorem pure (a : α) : Emits T (pure a) := fun p => ⟨a, p, rfl, .inl⟩

theorem bind {x : Emit α} {k : α → Emit β} (first : Emits T x) (rest : ∀ a, Emits T (k a)) :
    Emits T (x >>= k) := by
  intro p
  obtain ⟨a, q, ended, calm⟩ := first p
  obtain ⟨b, t, done, calm'⟩ := rest a q
  rw [run_bind, ended]
  exact ⟨b, t, done, fun stopped => (calm' stopped).elim calm .inr⟩

/-- Printing cannot fail. -/
theorem lift {x : Print α} (calm : Calm T x) : Emits T (liftM x) := fun p =>
  ⟨(x.run p).1, (x.run p).2, rfl, calm p⟩

theorem except {x : Except Fault α} {a : α} (ok : x = .ok a) : Emits T (liftM x) := by
  intro p
  rw [run_lift, ok]
  exact ⟨a, p, rfl, .inl⟩

theorem mapM {f : γ → Emit α} (xs : List γ) (each : ∀ x ∈ xs, Emits T (f x)) :
    Emits T (xs.mapM f) :=
  mapM_related (fun _ x _ => Emits T x) pure bind (g := id) (h := id) (List.map_id xs).symm
    (f := f) (j := f) each

end Emits

theorem domainNamed_ok {domains : List ClockDomain} {name : String}
    (declared : name ∈ domains.map (·.name)) : ∃ d, domainNamed domains name = .ok d := by
  rw [domainNamed]
  cases found : domains.find? (·.name = name) with
  | some d => exact ⟨d, rfl⟩
  | none =>
    obtain ⟨d, hd, same⟩ := List.mem_map.mp declared
    exact absurd same (by simpa using List.find?_eq_none.mp found d hd)

/-! ### Cells and blocks -/

section Cells

variable {domains : List ClockDomain}

theorem emits_memoryPortText {p : Memory.Port}
    (declared : p.clocked = true → p.domain ∈ domains.map (·.name)) (m : Memory) (name : String)
    (index : Nat) : Emits T (memoryPortText domains m name p index) := by
  refine (Emits.lift (calm_nameOf p.adr)).bind fun adr => ?_
  refine (Emits.lift (calm_nameOf p.datR)).bind fun datR => ?_
  cases clocked : p.clocked with
  | false => exact .pure _
  | true =>
    obtain ⟨d, found⟩ := domainNamed_ok (declared clocked)
    refine (Emits.except found).bind fun d => (Emits.lift (calm_nameOf d.clk)).bind fun clk => ?_
    have writes := Emits.lift (onlyAdds_writeText (T := T) (m := m) (p := p) name adr).calm
    cases p.asyncRead with
    | true => exact writes.bind fun _ => .pure _
    | false =>
      refine (Emits.lift (calm_readRegister m p index name adr)).bind fun register => ?_
      refine writes.bind fun _ => ?_
      exact (Emits.lift (onlyAdds_readGates).calm).bind fun gates => .pure _

theorem emits_memoryText {m : Memory}
    (declared : ∀ d ∈ (Cell.Kind.memory m).homes, d ∈ domains.map (·.name)) (style : MemoryInit) :
    Emits T (memoryText domains style m) := by
  refine (Emits.lift (.claim _)).bind fun name => ?_
  refine (Emits.lift (onlyAdds_initText style name).calm).bind fun init => ?_
  refine (Emits.mapM _ fun x hx => ?_).bind fun ports => .pure _
  have member : x.1 ∈ m.ports := (List.mem_zipIdx hx).2.2 ▸ List.getElem_mem _
  apply emits_memoryPortText
  intro clocked
  exact declared _ (List.mem_map_of_mem (List.mem_filter.mpr ⟨member, clocked⟩))

theorem emits_cellText {c : Cell} (native : c.tag.native = true)
    (declared : ∀ d ∈ c.kind.homes, d ∈ domains.map (·.name))
    (filled : ∀ p ∈ c.ports, T ∨ p.value.Filled) (style : MemoryInit) :
    Emits T (cellText domains style c) := by
  obtain ⟨id, kind⟩ := c
  cases kind with
  | inst i => exact (Emits.lift (calm_instanceText filled)).bind fun _ => .pure _
  | memory m => exact (emits_memoryText declared style).bind fun _ => .pure _
  | tristate t => exact (Emits.lift (onlyAdds_tristateText filled).calm).bind fun _ => .pure _
  | directive d => exact (Emits.lift (onlyAdds_directiveText).calm).bind fun _ => .pure _
  | multiReg | resetSync | diffInput | diffOutput => cases native

end Cells

/-! ### Whole modules -/

/-- The netlist declares a domain, and does so once. -/
abbrev DeclaresOnce (n : Netlist) (d : String) : Prop := (n.domains.map (·.name)).count d = 1

theorem DeclaresOnce.mem {n : Netlist} {d : String} (h : DeclaresOnce n d) :
    d ∈ n.domains.map (·.name) :=
  List.count_pos_iff.mp (h ▸ Nat.one_pos)

/-- Nothing is left that has no text: no reference to a domain, no machine statement, no abstract
cell. Every clocked part has one domain. -/
structure Emittable (n : Netlist) : Prop where
  values : ∀ e ∈ Stmt.exprsOf n.stmts, e.refs = []
  ports : ∀ c ∈ n.cells.values, ∀ p ∈ c.ports, p.value.refs = []
  plain : Stmt.sugarOf? n.stmts = none
  native : ∀ c ∈ n.cells.values, c.tag.native = true
  clocked : ∀ d ∈ n.clocked, DeclaresOnce n d
  memories : ∀ c ∈ n.cells.values, ∀ m, c.kind = .memory m → ∀ p ∈ m.ports, p.clocked = true →
    DeclaresOnce n p.domain

/-- All expressions have bits, and no more than a width can count: those of statements, the clocked
targets in normal form, and what is connected to cells. -/
structure Filled (n : Netlist) : Prop where
  comb : ∀ e ∈ Stmt.exprsOf n.comb, e.Filled
  sync : ∀ ss ∈ n.sync.values, FilledBlock ss
  cells : ∀ c ∈ n.cells.values, ∀ p ∈ c.ports, p.value.Filled

namespace Emittable

variable {n : Netlist}

theorem emits_syncText (h : Emittable n) (filled : T ∨ Filled n) : Emits T (syncText n) := by
  refine (Emits.mapM _ fun e he => ?_).bind fun _ => .pure _
  obtain ⟨d, found⟩ := domainNamed_ok (h.clocked e.1 (List.mem_map_of_mem he)).mem
  have listed : e.2 ∈ n.sync.values := List.mem_map_of_mem (List.mem_filter.mp he).1
  refine (Emits.except found).bind fun d => ?_
  exact .lift (onlyAdds_clockedBlock d (filled.imp_right (·.sync e.2 listed))).calm

theorem homes (h : Emittable n) {c : Cell} (hc : c ∈ n.cells.values) :
    ∀ d ∈ c.kind.homes, d ∈ n.domains.map (·.name) := by
  have native := h.native c hc
  have memories := h.memories c hc
  obtain ⟨id, kind⟩ := c
  intro d hd
  cases kind with
  | memory m =>
    obtain ⟨p, hp, rfl⟩ := List.mem_map.mp hd
    obtain ⟨member, clocked⟩ := List.mem_filter.mp hp
    exact (memories m rfl p member clocked).mem
  | inst | tristate | directive => cases hd
  | multiReg | resetSync | diffInput | diffOutput => cases native

theorem emits_bodyText (h : Emittable n) (filled : T ∨ Filled n) (order : List Signal)
    (style : MemoryInit) : Emits T (bodyText n order style) := by
  refine (Emits.lift (onlyAdds_combText (filled.imp_right (·.comb)) order).calm).bind fun comb => ?_
  refine (h.emits_syncText filled).bind fun sync => ?_
  refine Emits.bind ?_ fun cells => .pure _
  refine (Emits.mapM _ fun c hc => ?_).bind fun _ => .pure _
  exact emits_cellText (h.native c hc) (h.homes hc)
    (fun p hp => filled.imp_right (·.cells c hc p hp)) style

/-- Such a netlist is written, whatever its ports, or an expression in it has no bits or too
many. -/
theorem write_ok (h : Emittable n) (ports : List Port) (config : Config.Codegen) :
    (∃ w, write n ports config = .ok w) ∨ write n ports config = .error .overflow ∧ ¬ Filled n := by
  obtain ⟨a, printer, ended, calm⟩ := h.emits_bodyText (Classical.em (Filled n)).symm
    (namingOrder n ports) config.memoryInit { names := (Names.assign ∅ (hinted n ports)).1
                                              used := (Names.assign ∅ (hinted n ports)).2 }
  rw [write_eq, writeWith, ended]
  cases stopped : printer.overflow with
  | false =>
    simp only [stopped]
    exact .inl ⟨_, rfl⟩
  | true =>
    simp only [stopped]
    exact .inr ⟨rfl, (calm stopped).resolve_left Bool.false_ne_true⟩

end Emittable

/-! ### Names -/

theorem contains_give (acc : Names × Scope) (h : Signal × String) (s : Signal) :
    (Names.give acc h).1.contains s = true ↔ s = h.1 ∨ acc.1.contains s = true := by
  rw [Names.give]
  split
  next known =>
    refine ⟨.inr, ?_⟩
    rintro (rfl | named)
    · exact known
    · exact named
  next =>
    simp only [OrdMap.contains, OrdMap.get?_insert]
    split <;> simp_all

/-- Every signal that is listed gets a name. -/
theorem contains_assign (used : Scope) (hints : List (Signal × String)) (s : Signal) :
    (Names.assign used hints).1.contains s = true ↔ s ∈ hints.map Prod.fst := by
  have step : ∀ acc : Names × Scope, (hints.foldl Names.give acc).1.contains s = true ↔
      acc.1.contains s = true ∨ s ∈ hints.map Prod.fst := by
    induction hints with
    | nil => simp
    | cons h hints ih =>
      intro acc
      rw [List.foldl_cons, ih, contains_give, List.map_cons, List.mem_cons]
      tauto
  rw [Names.assign_eq, step]
  simp [OrdMap.contains]

/-- What a module is written with. -/
theorem write_eq_ok {n : Netlist} {ports : List Port} {config : Config.Codegen} {w : Written}
    (ok : write n ports config = .ok w) :
    w.names = (Names.assign ∅ (hinted n ports)).1 ∧
      writeWith n ports config w.names (Names.assign ∅ (hinted n ports)).2 =
        .ok (w.source, w.files) := by
  rw [write_eq] at ok
  cases text : writeWith n ports config (Names.assign ∅ (hinted n ports)).1
      (Names.assign ∅ (hinted n ports)).2 with
  | error f =>
    rw [text] at ok
    cases ok
  | ok source =>
    rw [text] at ok
    cases ok
    exact ⟨rfl, text⟩

/-- The signals of the netlist and the ports are named, and no others. -/
theorem named_of_write {n : Netlist} {ports : List Port} {config : Config.Codegen} {w : Written}
    (ok : write n ports config = .ok w) (s : Signal) :
    w.names.contains s = true ↔ s ∈ namingOrder n ports := by
  rw [(write_eq_ok ok).1, contains_assign, hinted, List.map_map]
  exact Iff.of_eq (congrArg _ (List.map_id' _))

theorem mem_namingOrder {n : Netlist} {ports : List Port} {s : Signal} :
    s ∈ namingOrder n ports ↔ s ∈ ports.map (·.signal) ∨ s ∈ mentioned n := by
  simp only [namingOrder, List.mem_append, List.mem_filter, OrdSet.mem_toList, decide_eq_true_eq]
  tauto

/-- No name is asked for but those of the signals of the netlist and of its ports. -/
theorem writeWith_congr {n : Netlist} {ports : List Port} (config : Config.Codegen)
    {names names' : Names} (used : Scope)
    (agree : ∀ s ∈ namingOrder n ports, names'.name s = names.name s) :
    writeWith n ports config names' used = writeWith n ports config names used := by
  -- the numbering that changes nothing, once with the old names and once with the new ones
  have within : NetlistWithin (· ∈ namingOrder n ports) n :=
    netlistWithin_iff.mpr fun s hs => mem_namingOrder.mpr (.inr hs)
  have listed : ∀ p ∈ ports, p.signal ∈ namingOrder n ports := fun p hp =>
    mem_namingOrder.mpr (.inl (List.mem_map_of_mem hp))
  have alike : NamedAlike (· ∈ namingOrder n ports) .same names names' := agree
  calc writeWith n ports config names' used
    _ = writeWith (n.renumber .same) (ports.map (Port.renumber .same)) config names' used :=
      (writeWith_renumber within listed config (fun _ _ => rfl) used).symm
    _ = writeWith n ports config names used := writeWith_renumber within listed config alike used

/-- Other names for signals that have none leave the text as it is: none of them is printed. -/
theorem writeWith_of_named {n : Netlist} {ports : List Port} {config : Config.Codegen} {w : Written}
    (ok : write n ports config = .ok w) {names : Names}
    (agree : ∀ s, w.names.contains s = true → names.get? s = w.names.get? s) :
    writeWith n ports config names (Names.assign ∅ (hinted n ports)).2 =
      .ok (w.source, w.files) := by
  rw [← (write_eq_ok ok).2]
  apply writeWith_congr
  intro s hs
  rw [Names.name, Names.name, OrdMap.getD, OrdMap.getD, agree s ((named_of_write ok s).mpr hs)]

end Gateware.Verilog
