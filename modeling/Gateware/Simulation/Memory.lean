import Gateware.Memory
import Gateware.Simulation.Frame

/-!
# Simulated memories

The words of a memory and what its ports do to them on a clock edge.
-/
namespace Gateware

/-- A memory with its words and the addresses that write-first ports have taken in. -/
structure MemoryState where
  memory : Memory
  words : Array Nat
  latched : OrdMap Nat Int

namespace MemoryState

/-- Whether a port takes in its address and then follows the word there. -/
def followsAddress (p : Memory.Port) : Bool := !p.asyncRead && p.mode = .writeFirst

/-- A memory before the first clock edge. -/
def initial (m : Memory) : MemoryState where
  memory := m
  words :=
    ((m.init.map Int.toNat ++ List.replicate (m.depth - m.init.length) 0).take m.depth).toArray
  latched :=
    .ofList ((m.ports.zipIdx.filter fun (p, _) => followsAddress p).map fun (_, i) => (i, 0))

/-- The word at an address, zero outside the memory. -/
def wordAt (words : Array Nat) (adr : Int) : Nat :=
  if 0 ≤ adr then words.getD adr.toNat 0 else 0

def read (m : MemoryState) (adr : Int) : Nat := wordAt m.words adr

/-- The address that a write-first port follows. -/
def followed (m : MemoryState) (port : Nat) : Nat :=
  match m.latched.get? port with
  | some adr => m.read adr
  | none => 0

/-- A word of `width` bits in `lanes` lanes, with the enabled ones replaced. -/
def mergeLanes (old new enables width lanes : Nat) : Nat :=
  let laneWidth := width / lanes
  (List.range lanes).foldl (fun word lane =>
    if enables.testBit lane then
      let field := mask laneWidth <<< (lane * laneWidth)
      (word &&& (mask width ^^^ field)) ||| (new &&& field)
    else word) old

/-- Let a port write what its signals say. -/
def write (ρ : Valuation) (m : MemoryState) (p : Memory.Port) : MemoryState :=
  match p.write with
  | none => m
  | some w =>
    let enables := toBits (ρ w.enable) w.enable.width
    let data := toBits (ρ w.data) w.data.width
    let adr := ρ p.adr
    if enables ≠ 0 ∧ 0 ≤ adr then
      let lanes := Memory.lanes p.granularity m.memory.width
      { m with words := m.words.modify adr.toNat fun old =>
        mergeLanes old data enables m.memory.width lanes }
    else m

/-- Whether a clocked port reads on this edge. -/
def reads (ρ : Valuation) (p : Memory.Port) : Bool :=
  let enabled := p.re.all fun re => ρ re ≠ 0
  let writing := p.write.any fun w => ρ w.enable ≠ 0
  !p.asyncRead && enabled && !(p.mode = .noChange && writing)

/-- A clock edge in `domain`: all writes in port order, then all reads. Gives the new read data of
the ports that show what was there before the edge. -/
def edge (m : MemoryState) (ρ : Valuation) (domain : String) :
    MemoryState × List (Signal × Int) :=
  let ports := m.memory.ports.zipIdx.filter fun (p, _) => p.domain = domain
  let written := ports.foldl (fun m (p, _) => write ρ m p) m
  let reading := ports.filter fun (p, _) => reads ρ p
  let latched := (reading.filter fun (p, _) => p.mode = .writeFirst).foldl
    (fun l (p, i) => l.insert i (ρ p.adr)) m.latched
  ({ written with latched },
    (reading.filter fun (p, _) => p.mode ≠ .writeFirst).map fun (p, _) =>
      (p.datR, (wordAt m.words (ρ p.adr) : Int)))

end MemoryState

end Gateware
