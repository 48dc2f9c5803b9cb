import Gateware.Proofs.Bits
import Gateware.Proofs.Ordered
import Gateware.Simulation.Memory

/-!
# Words of a memory on a clock edge

On an edge the ports of a domain write in order, each one only the lanes that are enabled. So a bit
of a word is what the last port put there that wrote its lane, and what it was before if none did.

Lanes are counted in steps of the granularity. Without one there is a single lane, and this is the
lane that division by zero gives.
-/
namespace Gateware

/-- The pattern of bits that a signal holds. -/
def sample (ρ : Valuation) (s : Signal) : Nat := toBits (ρ s) s.width

namespace Memory.Port

/-- The bit that a port puts at place `b` of word `a`, if it writes there. -/
def puts? (p : Port) (ρ : Valuation) (a b : Nat) : Option Bool :=
  p.write.bind fun w =>
    if ρ p.adr = a ∧ (sample ρ w.enable).testBit (b / p.granularity) then
      some ((sample ρ w.data).testBit b)
    else none

/-- A port takes a word in unless its read enable is low, or it holds what it shows while one of its
lanes is written. -/
def takes (p : Port) (ρ : Valuation) : Bool :=
  (p.re.all fun re => ρ re ≠ 0) &&
    !(p.mode = .noChange && p.write.any fun w => sample ρ w.enable ≠ 0)

/-- A port gives and takes words of `width` bits, and its lanes fill them. -/
structure Fits (p : Port) (width : Nat) : Prop where
  read : p.datR.shape = .unsigned width
  enable : ∀ w ∈ p.write, w.enable.shape = .unsigned (lanes p.granularity width)
  data : ∀ w ∈ p.write, w.data.shape = .unsigned width
  fills : ∀ w ∈ p.write, p.granularity = 0 ∨ width % p.granularity = 0

end Memory.Port

namespace MemoryState

/-! ### Lanes -/

/-- One step of a merge, with lanes of `l` bits. -/
theorem testBit_lane {old new width l b : Nat} (hl : 0 < l) (hb : b < width) (k : Nat) :
    ((old &&& (mask width ^^^ (mask l <<< (k * l)))) ||| (new &&& (mask l <<< (k * l)))).testBit b =
      if b / l = k then new.testBit b else old.testBit b := by
  have inside : (mask l <<< (k * l)).testBit b = decide (b / l = k) := by
    rw [Nat.testBit_shiftLeft, testBit_mask, Bool.eq_iff_iff]
    simp only [Bool.and_eq_true, decide_eq_true_eq]
    rw [Nat.div_eq_iff hl]
    omega
  simp only [Nat.testBit_or, Nat.testBit_and, Nat.testBit_xor, inside, testBit_mask, hb]
  by_cases here : b / l = k <;> simp [here]

theorem testBit_merge {new enables width l b : Nat} (hl : 0 < l) (hb : b < width) (old n : Nat) :
    ((List.range n).foldl (fun word lane =>
      if enables.testBit lane then
        (word &&& (mask width ^^^ (mask l <<< (lane * l)))) ||| (new &&& (mask l <<< (lane * l)))
      else word) old).testBit b =
      if b / l < n ∧ enables.testBit (b / l) then new.testBit b else old.testBit b := by
  induction n with
  | zero => simp
  | succ n ih =>
    rw [List.range_succ, List.foldl_append, List.foldl_cons, List.foldl_nil]
    by_cases on : enables.testBit n = true
    · rw [if_pos on, testBit_lane hl hb, ih]
      by_cases here : b / l = n
      · simp [here, on]
      · have step : b / l < n + 1 ↔ b / l < n := by omega
        simp only [if_neg here, step]
    · rw [if_neg on, ih]
      by_cases here : b / l = n
      · simp [here, on]
      · have step : b / l < n + 1 ↔ b / l < n := by omega
        simp only [step]

/-- Lanes cover a word, each with as many bits as the granularity says. -/
theorem lane_eq {g width b : Nat} (fills : g = 0 ∨ width % g = 0) (hb : b < width) :
    0 < width / Memory.lanes g width ∧ b / (width / Memory.lanes g width) < Memory.lanes g width ∧
      b / (width / Memory.lanes g width) = b / g := by
  unfold Memory.lanes
  split
  next single =>
    rw [Nat.div_one]
    refine ⟨by omega, by rw [Nat.div_eq_of_lt hb]; omega, ?_⟩
    rw [Nat.div_eq_of_lt hb]
    rcases single with rfl | wide
    · exact (Nat.div_zero b).symm
    · exact (Nat.div_eq_of_lt (Nat.lt_of_lt_of_le hb wide)).symm
  next several =>
    have divides : g ∣ width := Nat.dvd_of_mod_eq_zero (fills.resolve_left (by omega))
    have pos : 0 < g := by omega
    rw [Nat.div_div_self divides (by omega)]
    exact ⟨pos, Nat.div_lt_div_of_lt_of_dvd divides hb, rfl⟩

theorem testBit_mergeLanes {g width b : Nat} (fills : g = 0 ∨ width % g = 0) (hb : b < width)
    (old new enables : Nat) :
    (mergeLanes old new enables width (Memory.lanes g width)).testBit b =
      if enables.testBit (b / g) then new.testBit b else old.testBit b := by
  obtain ⟨pos, inside, lane⟩ := lane_eq fills hb
  refine (testBit_merge pos hb old (Memory.lanes g width)).trans ?_
  simp only [inside, true_and]
  rw [lane]

theorem mergeLanes_lt {old new width : Nat} (hold : old < 2 ^ width) (hnew : new < 2 ^ width)
    (enables n : Nat) : mergeLanes old new enables width n < 2 ^ width := by
  unfold mergeLanes
  generalize width / n = l
  induction n with
  | zero => exact hold
  | succ n ih =>
    simp only [List.range_succ, List.foldl_append, List.foldl_cons, List.foldl_nil]
    split
    · exact Nat.or_lt_two_pow (Nat.lt_of_le_of_lt Nat.and_le_left ih)
        (Nat.lt_of_le_of_lt Nat.and_le_left hnew)
    · exact ih

/-! ### Reads and writes -/

theorem read_ofNat (m : MemoryState) (a : Nat) : m.read a = m.words[a]?.getD 0 := by
  rw [read, wordAt, if_pos (Int.natCast_nonneg a), Int.toNat_natCast, Array.getD_eq_getD_getElem?]

/-- Outside of the memory everything reads as zero. -/
theorem read_outside (m : MemoryState) {adr : Int} (outside : adr < 0 ∨ m.words.size ≤ adr) :
    m.read adr = 0 := by
  rw [read, wordAt]
  split
  · rw [Array.getD_eq_getD_getElem?, Array.getElem?_eq_none (by omega), Option.getD_none]
  · rfl

/-- As many words as the memory is deep, of as many bits as it is wide. -/
structure Sized (m : MemoryState) : Prop where
  size : m.words.size = m.memory.depth
  word : ∀ adr, m.read adr < 2 ^ m.memory.width

/-- A memory of its size with ports for its words. -/
structure Regular (m : MemoryState) : Prop extends Sized m where
  ports : ∀ p ∈ m.memory.ports, p.Fits m.memory.width

section Write

variable {m : MemoryState} {p : Memory.Port} (ρ : Valuation)

@[simp] theorem memory_write : (write ρ m p).memory = m.memory := by
  unfold write
  split
  · rfl
  · dsimp only
    split <;> rfl

@[simp] theorem size_write : (write ρ m p).words.size = m.words.size := by
  unfold write
  split
  · rfl
  · dsimp only
    split
    · exact Array.size_modify
    · rfl

/-- A write changes the word at its address, if there is one and some lane is enabled. -/
theorem read_write {w : Memory.WriteSide} (side : p.write = some w) (a : Nat) :
    (write ρ m p).read a =
      if sample ρ w.enable ≠ 0 ∧ ρ p.adr = a ∧ a < m.words.size then
        mergeLanes (m.read a) (sample ρ w.data) (sample ρ w.enable) m.memory.width
          (Memory.lanes p.granularity m.memory.width)
      else m.read a := by
  let merged (old : Nat) : Nat := mergeLanes old (sample ρ w.data) (sample ρ w.enable)
    m.memory.width (Memory.lanes p.granularity m.memory.width)
  have unfolded : write ρ m p = if sample ρ w.enable ≠ 0 ∧ 0 ≤ ρ p.adr then
      { m with words := m.words.modify (ρ p.adr).toNat merged } else m := by
    rw [write, side]
    rfl
  rw [unfolded]
  by_cases writes : sample ρ w.enable ≠ 0 ∧ 0 ≤ ρ p.adr
  · rw [if_pos writes, read_ofNat, read_ofNat, Array.getElem?_modify]
    by_cases here : ρ p.adr = a
    · by_cases inside : a < m.words.size
      · simp [here, inside, writes.1, merged]
      · simp [here, inside]
    · have differ : (ρ p.adr).toNat ≠ a := by omega
      simp only [if_neg differ, here, false_and, and_false, if_false]
  · rw [if_neg writes, if_neg]
    rintro ⟨some, here, -⟩
    exact writes ⟨some, by omega⟩

/-- A bit of a word is what the port puts there, or else what it was. -/
theorem testBit_read_write (fits : p.Fits m.memory.width) {a b : Nat} (ha : a < m.words.size)
    (hb : b < m.memory.width) :
    ((write ρ m p).read a).testBit b = (p.puts? ρ a b).getD ((m.read a).testBit b) := by
  cases side : p.write with
  | none =>
    rw [Memory.Port.puts?, side, write, side]
    rfl
  | some w =>
    rw [read_write ρ side, Memory.Port.puts?, side, Option.bind_some]
    by_cases here : ρ p.adr = a
    · by_cases some : sample ρ w.enable ≠ 0
      · rw [if_pos ⟨some, here, ha⟩, testBit_mergeLanes (fits.fills w side) hb]
        by_cases on : (sample ρ w.enable).testBit (b / p.granularity) = true <;> simp [on, here]
      · rw [if_neg fun h => some h.1]
        have off : sample ρ w.enable = 0 := Decidable.not_not.mp some
        simp [off]
    · rw [if_neg fun h => here h.2.1, if_neg fun h => here h.1, Option.getD_none]

theorem Sized.write (sized : m.Sized) (fits : p.Fits m.memory.width) : (write ρ m p).Sized := by
  refine ⟨by rw [size_write, memory_write, sized.size], fun adr => ?_⟩
  rw [memory_write]
  by_cases outside : adr < 0
  · rw [read_outside _ (.inl outside)]
    exact Nat.two_pow_pos _
  · obtain ⟨a, rfl⟩ := Int.eq_ofNat_of_zero_le (Int.not_lt.mp outside)
    cases side : p.write with
    | none =>
      rw [MemoryState.write, side]
      exact sized.word a
    | some w =>
      rw [read_write ρ side]
      split
      · refine mergeLanes_lt (sized.word a) ?_ ..
        have bound : sample ρ w.data < 2 ^ w.data.width := toBits_lt ..
        have width : w.data.width = m.memory.width := congrArg Shape.width (fits.data w side)
        rwa [width] at bound
      · exact sized.word a

end Write

theorem followsAddress_iff {p : Memory.Port} :
    followsAddress p = true ↔ p.asyncRead = false ∧ p.mode = .writeFirst := by
  simp [followsAddress]

/-! ### Edges -/

/-- What a clock edge leaves of the words. Every bit is what the last port of the domain put there,
and if there is none, what it was. -/
structure Written (ρ : Valuation) (domain : String) (before after : MemoryState) : Prop where
  memory : after.memory = before.memory
  size : after.words.size = before.words.size
  bit : ∀ a b, a < before.words.size → b < before.memory.width →
    (after.read a).testBit b =
      ((before.memory.ports.filter (·.domain = domain)).reverse.findSome? (·.puts? ρ a b)).getD
        ((before.read a).testBit b)

@[simp] theorem memory_foldl_write (ρ : Valuation) (ps : List Memory.Port) (m : MemoryState) :
    (ps.foldl (write ρ) m).memory = m.memory := by
  induction ps generalizing m with
  | nil => rfl
  | cons p ps ih => rw [List.foldl_cons, ih, memory_write]

theorem foldl_write {ρ : Valuation} {ps : List Memory.Port} {m : MemoryState} (sized : m.Sized)
    (fits : ∀ p ∈ ps, p.Fits m.memory.width) :
    (ps.foldl (write ρ) m).words.size = m.words.size ∧ (ps.foldl (write ρ) m).Sized ∧
    ∀ a b, a < m.words.size → b < m.memory.width →
      ((ps.foldl (write ρ) m).read a).testBit b =
        (ps.reverse.findSome? (·.puts? ρ a b)).getD ((m.read a).testBit b) := by
  induction ps generalizing m with
  | nil => exact ⟨rfl, sized, fun _ _ _ _ => rfl⟩
  | cons p ps ih =>
    obtain ⟨here, rest⟩ := List.forall_mem_cons.mp fits
    obtain ⟨size, sized', bits⟩ := ih (sized.write ρ here) (by rwa [memory_write])
    rw [List.foldl_cons]
    refine ⟨size.trans (size_write ρ), sized', fun a b ha hb => ?_⟩
    rw [bits a b (by rwa [size_write]) (by rwa [memory_write]), testBit_read_write ρ here ha hb,
      List.reverse_cons, List.findSome?_append]
    -- A later port wins over this one.
    cases ps.reverse.findSome? (·.puts? ρ a b) with
    | some v => rfl
    | none => simp

theorem map_filter_zipIdx {α : Type} (q : α → Bool) (xs : List α) :
    (xs.zipIdx.filter fun x => q x.1).map (·.1) = xs.filter q := by
  have filtered := List.filter_map (f := Prod.fst) (p := q) (l := xs.zipIdx)
  rw [List.zipIdx_map_fst] at filtered
  exact filtered.symm

section Edge

variable (m : MemoryState) (ρ : Valuation) (domain : String)

theorem edge_words : (m.edge ρ domain).1 =
    { (m.memory.ports.filter (·.domain = domain)).foldl (write ρ) m with
      latched := (m.edge ρ domain).1.latched } := by
  rw [← map_filter_zipIdx, List.foldl_map]
  rfl

@[simp] theorem memory_edge : (m.edge ρ domain).1.memory = m.memory := by
  rw [edge_words]
  exact memory_foldl_write ..

/-- Words change on edges of domains that the memory has a port in. -/
theorem words_edge (other : ∀ p ∈ m.memory.ports, p.domain ≠ domain) :
    (m.edge ρ domain).1.words = m.words := by
  have ports : m.memory.ports.filter (·.domain = domain) = [] :=
    List.filter_eq_nil_iff.mpr fun p hp => by simpa using other p hp
  rw [edge_words, ports]
  rfl

variable {m}

theorem edge_written (regular : m.Regular) :
    Written ρ domain m (m.edge ρ domain).1 ∧ (m.edge ρ domain).1.Regular := by
  obtain ⟨size, sized, bits⟩ := foldl_write (ρ := ρ) regular.toSized
    fun p (hp : p ∈ m.memory.ports.filter (·.domain = domain)) =>
      regular.ports p (List.mem_filter.mp hp).1
  have memory := memory_foldl_write ρ (m.memory.ports.filter (·.domain = domain)) m
  rw [edge_words]
  exact ⟨⟨memory, size, bits⟩, ⟨sized.size, sized.word⟩, by simpa only [memory] using regular.ports⟩

/-- On an edge of its domain a port that follows an address takes in a new one, if it reads. -/
theorem latched_edge {p : Memory.Port} {k : Nat} (place : m.memory.ports[k]? = some p) :
    (m.edge ρ domain).1.latched.get? k =
      if p.domain = domain ∧ reads ρ p ∧ p.mode = .writeFirst then some (ρ p.adr)
      else m.latched.get? k := by
  have listed : ∀ x, x ∈ (((m.memory.ports.zipIdx.filter fun x => x.1.domain = domain).filter
        fun x => reads ρ x.1).filter fun x => x.1.mode = .writeFirst) ↔
      m.memory.ports[x.2]? = some x.1 ∧
        x.1.domain = domain ∧ reads ρ x.1 ∧ x.1.mode = .writeFirst := by
    intro x
    simp only [List.mem_filter, List.mem_zipIdx_iff_getElem?, decide_eq_true_eq, and_assoc]
  -- Places are distinct, so only the port itself sets its entry.
  have alone : ∀ x : Memory.Port × Nat, m.memory.ports[x.2]? = some x.1 → x.2 = k → x.1 = p := by
    rintro ⟨q, j⟩ at_j rfl
    exact Option.some.inj (at_j.symm.trans place)
  change OrdMap.get? (List.foldl _ _ _) k = _
  split
  next taken =>
    refine OrdMap.get?_foldl_insert_of_eq (fun x hx here => ?_)
      (.inl ⟨(p, k), (listed (p, k)).mpr ⟨place, taken⟩, rfl⟩)
    rw [alone x ((listed x).mp hx).1 here]
  next other =>
    refine OrdMap.get?_foldl_insert_of_ne (fun x hx here => other ?_) _
    obtain ⟨at_x, taken⟩ := (listed x).mp hx
    rwa [alone x at_x here] at taken

/-- An edge gives the words from before it to the ports that read and do not follow an address. -/
theorem mem_edge_data {e : Signal × Int} :
    e ∈ (m.edge ρ domain).2 ↔ ∃ p ∈ m.memory.ports,
      p.domain = domain ∧ reads ρ p ∧ p.mode ≠ .writeFirst ∧
      e = (p.datR, (m.read (ρ p.adr) : Int)) := by
  simp only [edge, List.mem_map, List.mem_filter, decide_eq_true_eq, and_assoc]
  constructor
  · rintro ⟨⟨p, k⟩, hp, own, reading, mode, rfl⟩
    exact ⟨p, List.fst_mem_of_mem_zipIdx hp, own, reading, mode, rfl⟩
  · rintro ⟨p, hp, own, reading, mode, rfl⟩
    obtain ⟨k, hk⟩ := List.mem_iff_getElem?.mp hp
    exact ⟨(p, k), List.mem_zipIdx_iff_getElem?.mpr hk, own, reading, mode, rfl⟩

end Edge

/-! ### Before the first edge -/

theorem latched_initial {m : Memory} {p : Memory.Port} {k : Nat} (place : m.ports[k]? = some p)
    (follows : followsAddress p) : (initial m).latched.get? k = some 0 := by
  change OrdMap.get? (List.foldl _ _ _) k = _
  refine OrdMap.get?_foldl_insert_of_eq (fun x hx _ => ?_) (.inl ⟨(k, 0), ?_, rfl⟩)
  · obtain ⟨y, -, rfl⟩ := List.mem_map.mp hx
    rfl
  · exact List.mem_map.mpr
      ⟨(p, k), List.mem_filter.mpr ⟨List.mem_zipIdx_iff_getElem?.mpr place, follows⟩, rfl⟩

@[simp] theorem size_initial (m : Memory) : (initial m).words.size = m.depth := by
  simp only [initial, List.size_toArray, List.length_take, List.length_append, List.length_map,
    List.length_replicate]
  omega

/-- The first words are as they were given, and the others are zero. -/
theorem read_initial {m : Memory} (fits : m.init.length ≤ m.depth) (a : Nat) :
    (initial m).read a = (m.init[a]?.getD 0).toNat := by
  rw [read_ofNat, initial, List.getElem?_toArray, List.getElem?_take]
  by_cases given : a < m.init.length
  · rw [if_pos (by omega), List.getElem?_append_left (by simpa using given), List.getElem?_map,
      List.getElem?_eq_getElem given]
    rfl
  · rw [List.getElem?_eq_none (Nat.le_of_not_lt given)]
    split
    · rw [List.getElem?_append_right (by simpa using given), List.getElem?_replicate]
      split <;> rfl
    · rfl

end MemoryState

end Gateware
