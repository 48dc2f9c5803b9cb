import Gateware.Fault

/-!
# Memories

A memory is an array of words with ports. Each port brings signals of its own for address, data
and enables. A memory carries the proof that no two of its ports read into one signal and that none
reads into its own address.
-/
namespace Gateware

/-- What a clocked read shows when the same port writes in that cycle. -/
inductive WriteMode
  /-- The word from before the write. -/
  | readFirst
  /-- The word being written. -/
  | writeFirst
  /-- What it showed before. -/
  | noChange
deriving DecidableEq, Repr, Inhabited

namespace Memory

/-- What a port is asked to be. -/
structure PortSpec where
  name : String
  write : Bool := false
  asyncRead : Bool := false
  readEnable : Bool := false
  mode : WriteMode := .readFirst
  /-- Bits to a write-enable lane; zero for one lane over the whole word. -/
  granularity : Nat := 0
  domain : String := "sys"
deriving DecidableEq, Repr

/-- The inputs of a port that can write. -/
structure WriteSide where
  /-- One bit for each lane. -/
  enable : Signal
  data : Signal
deriving DecidableEq, Repr

structure Port where
  name : String
  adr : Signal
  datR : Signal
  write : Option WriteSide
  re : Option Signal
  mode : WriteMode
  asyncRead : Bool
  granularity : Nat
  domain : String
deriving DecidableEq, Repr

/-- The number of lanes that `granularity` bits each split a word into. -/
def lanes (granularity width : Nat) : Nat :=
  if granularity = 0 ∨ width ≤ granularity then 1 else width / granularity

/-- Whether the port takes part in its domain's clock edge. -/
def Port.clocked (p : Port) : Bool := !p.asyncRead || p.write.isSome

/-- Every port reads into a signal of its own, and none takes its address from there. -/
structure OwnSignals (ports : List Port) : Prop where
  distinct : (ports.map (·.datR)).Nodup
  apart : ∀ p ∈ ports, p.adr ≠ p.datR

instance (ports : List Port) : Decidable (OwnSignals ports) :=
  decidable_of_iff ((ports.map (·.datR)).Nodup ∧ ∀ p ∈ ports, p.adr ≠ p.datR)
    ⟨fun h => ⟨h.1, h.2⟩, fun h => ⟨h.1, h.2⟩⟩

namespace OwnSignals

variable {ports : List Port}

theorem nil : OwnSignals [] := by decide

/-- Ports stay apart under a change that keeps their signals apart. -/
theorem map (own : OwnSignals ports) {f : Port → Port}
    (distinct : ∀ p ∈ ports, ∀ q ∈ ports, (f p).datR = (f q).datR → p.datR = q.datR)
    (apart : ∀ p ∈ ports, (f p).adr = (f p).datR → p.adr = p.datR) :
    OwnSignals (ports.map f) where
  distinct := by
    refine List.pairwise_map.mpr (List.pairwise_map.mpr ?_)
    refine (List.pairwise_map.mp own.distinct).imp_of_mem ?_
    intro p q hp hq differ same
    exact differ (distinct p hp q hq same)
  apart := by
    intro p hp same
    obtain ⟨q, hq, rfl⟩ := List.mem_map.mp hp
    exact own.apart q hq (apart q hq same)

/-- One more port, with signals that are not there yet. -/
theorem concat (own : OwnSignals ports) {port : Port} (new : ∀ p ∈ ports, p.datR ≠ port.datR)
    (apart : port.adr ≠ port.datR) : OwnSignals (ports ++ [port]) where
  distinct := by
    rw [List.map_append, List.nodup_append]
    refine ⟨own.distinct, by simp, ?_⟩
    intro s hs t ht
    obtain ⟨p, hp, rfl⟩ := List.mem_map.mp hs
    rw [List.map_singleton, List.mem_singleton] at ht
    exact ht ▸ new p hp
  apart := by
    intro p hp
    rcases List.mem_append.mp hp with old | last
    · exact own.apart p old
    · rw [List.mem_singleton.mp last]
      exact apart

end OwnSignals

end Memory

/-- An array of words with ports. -/
structure Memory where
  name : String
  width : Nat
  depth : Nat
  /-- The first words; the rest start as zero. -/
  init : List Int := []
  ports : List Memory.Port := []
  own : Memory.OwnSignals ports := by first | exact Memory.OwnSignals.nil | decide
deriving DecidableEq, Repr

namespace Memory

/-- Set the first words, each cut to the memory's width; words past the end are dropped. -/
def withInit (m : Memory) (init : List Int) : Memory :=
  { m with init := (init.take m.depth).map (wrap · m.width false) }

def addressWidth (m : Memory) : Nat := bitsFor (m.depth - 1 : Nat) false

def port? (m : Memory) (name : String) : Option Port := m.ports.find? (·.name = name)

/-- Why a port cannot be added: its name is taken, or its lanes do not fill the word. -/
def portFault? (m : Memory) (spec : PortSpec) : Option Fault :=
  if m.ports.any (·.name = spec.name) then some (.duplicatePort m.name spec.name)
  else if spec.write ∧ spec.granularity ≠ 0 ∧ m.width % spec.granularity ≠ 0 then
    some (.malformedExpression s!"{m.name}.{spec.name}"
      s!"write granularity {spec.granularity} does not divide width {m.width}")
  else none

/-- Create the signals of a port. -/
def freshPort (m : Memory) (spec : PortSpec) : StateM Supply Port := do
  let stem := s!"{m.name}_{spec.name}"
  let adr ← Signal.fresh s!"{stem}_adr" (.unsigned m.addressWidth)
  let datR ← Signal.fresh s!"{stem}_dat_r" (.unsigned m.width)
  let re ← if spec.readEnable then some <$> Signal.fresh s!"{stem}_re" (.unsigned 1) else pure none
  let write ←
    if spec.write then do
      let enable ← Signal.fresh s!"{stem}_we" (.unsigned (lanes spec.granularity m.width))
      let data ← Signal.fresh s!"{stem}_dat_w" (.unsigned m.width)
      pure (some { enable, data : WriteSide })
    else pure none
  return { name := spec.name, adr, datR, write, re, mode := spec.mode, asyncRead := spec.asyncRead,
           granularity := spec.granularity, domain := spec.domain }

theorem freshPort_ids (m : Memory) (spec : PortSpec) (u : Supply) :
    ((m.freshPort spec).run u).1.adr.id.index = u.nextSignal ∧
    ((m.freshPort spec).run u).1.datR.id.index = u.nextSignal + 1 ∧
    u.nextSignal + 2 ≤ ((m.freshPort spec).run u).2.nextSignal := by
  obtain ⟨name, write, asyncRead, readEnable, mode, granularity, domain⟩ := spec
  cases readEnable <;> cases write <;> refine ⟨rfl, rfl, ?_⟩
  · exact Nat.le_refl _
  · exact Nat.le_add_right (u.nextSignal + 2) 2
  · exact Nat.le_add_right (u.nextSignal + 2) 1
  · exact Nat.le_add_right (u.nextSignal + 2) 3

/-- Create a port with signals that the memory does not have, whatever the supply. -/
def newPort (m : Memory) (spec : PortSpec) (u : Supply) : Port × Supply :=
  (m.freshPort spec).run (u.past (m.ports.map (·.datR)))

theorem own_newPort (m : Memory) (spec : PortSpec) (u : Supply) :
    OwnSignals (m.ports ++ [(m.newPort spec u).1]) := by
  obtain ⟨address, data, -⟩ := m.freshPort_ids spec (u.past (m.ports.map (·.datR)))
  refine m.own.concat ?_ ?_
  · intro p hp same
    have old := u.lt_past (List.mem_map_of_mem (f := (·.datR)) hp)
    rw [same, newPort, data] at old
    omega
  · intro same
    rw [← newPort, same, newPort, data] at address
    omega

/-- The memory with one more port at the end. -/
def withPort (m : Memory) (spec : PortSpec) (u : Supply) : Memory :=
  { m with ports := m.ports ++ [(m.newPort spec u).1], own := m.own_newPort spec u }

/-- Add a port at the end; gives the port and the memory with it. -/
def addPort (m : Memory) (spec : PortSpec) : Build (Port × Memory) := do
  if let some fault := m.portFault? spec then throw fault
  modifyGet fun u => (((m.newPort spec u).1, m.withPort spec u), (m.newPort spec u).2)

/-- The same memory with its ports in renamed domains. -/
def moveHomes (f : String → String) (m : Memory) : Memory :=
  { m with
    ports := m.ports.map fun p => { p with domain := f p.domain }
    own := m.own.map (fun _ _ _ _ same => same) (fun _ _ same => same) }

end Memory

end Gateware
