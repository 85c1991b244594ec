import MulticoreRtos.MpmcFifoThreads
import MulticoreRtos.SpscAllocation

/-!
The size queries of `os/ipc.c`. Each is compared with the puts that have
succeeded and the gets that have returned. `fifo8_size` gives its answer as a
`uint8_t`.
-/

namespace MulticoreRtos.FifoSizes

open CyclicBuffer SpscFifo Transition SpscAllocation
open Heap (heapSize)
open MpmcFifo (Fifo sizeofFifo)

variable {Value : Type}

/-- The body that the three functions share; the indices are below `size`. -/
def distance (tail head size : Nat) : Nat :=
  if head ≤ tail then tail - head else size - (head - tail)

def fifo32Size (fifo : Fifo32) : Nat := distance fifo.tail fifo.head fifo.size

def fifo8Size (fifo : Fifo8) : Nat := distance fifo.tail fifo.head fifo.size % 2 ^ 8

def fifoSizeNonblocking (fifo : Fifo Value) : Nat := distance fifo.tail fifo.head fifo.size

/-- `empty.value` as a `uint32_t`. -/
def fifoSize (fifo : Fifo Value) : Nat := (fifo.empty % 2 ^ 32).toNat

def BetweenCalls {Fifo : Type} (s : State Fifo Value) : Prop :=
  s.producer = .idle ∧ s.consumer = .idle

def SizeExact {Fifo : Type} (parts : Parts Fifo Value) (fifo : Fifo) (sizeOf : Fifo → Nat) : Prop :=
  ∀ s, Reaches (step parts) free (· = fresh fifo) s → BetweenCalls s →
    sizeOf s.fifo + s.got.length = s.put.length

theorem distance_cell {size head count : Nat} (inside : head < size) (room : count < size) :
    distance (cell size head count) head size = count := by
  rw [distance, cell]
  by_cases wraps : head + count < size
  · rw [Nat.mod_eq_of_lt wraps, if_pos (Nat.le_add_right _ _), Nat.add_sub_cancel_left]
  · rw [Nat.mod_eq_sub_mod (Nat.not_lt.mp wraps), Nat.mod_eq_of_lt (by omega), if_neg (by omega)]
    omega

theorem distance_counts {size puts gets : Nat} (low : gets ≤ puts) (room : puts < gets + size) :
    distance (puts % size) (gets % size) size = puts - gets := by
  have ahead : cell size (gets % size) (puts - gets) = puts % size := by
    rw [cell, Nat.mod_add_mod, Nat.add_sub_cancel' low]
  rw [← ahead, distance_cell (Nat.mod_lt _ (by omega)) (by omega)]

theorem inv_distance {s : State (SpscFifo.Ring Value) Value} {count : Nat} (inv : Inv s count) :
    distance s.fifo.tail s.fifo.head s.fifo.size = count := by
  have room := inv.room
  rw [inv.tail, distance_cell inv.head (by omega)]

theorem inv_accounts {s : State (SpscFifo.Ring Value) Value} {count : Nat} (inv : Inv s count) :
    count + s.got.length = s.put.length := by
  rw [inv.values, List.length_append, contents_length, Nat.add_comm]

theorem step_size {s after : State (SpscFifo.Ring Value) Value} (action : Action Value)
    (stepped : step ringParts s action = some after) : after.fifo.size = s.fifo.size := by
  obtain ⟨ring, producer, consumer, put, got⟩ := s
  cases action with
  | testFull value =>
      cases producer <;> simp only [step, reduceCtorEq, Option.map_eq_some_iff] at stepped
      obtain ⟨full, _, rfl⟩ := stepped
      split <;> rfl
  | store =>
      cases producer <;> simp only [step, reduceCtorEq, Option.some.injEq] at stepped
      subst stepped
      rfl
  | advanceTail =>
      cases producer <;> simp only [step, reduceCtorEq, Option.map_eq_some_iff] at stepped
      obtain ⟨moved, moves, rfl⟩ := stepped
      obtain ⟨_, _, rfl⟩ := Option.map_eq_some_iff.mp moves
      rfl
  | testEmpty =>
      cases consumer <;> simp only [step, reduceCtorEq, Option.some.injEq] at stepped
      subst stepped
      split <;> rfl
  | load buffer =>
      cases consumer <;> simp only [step, reduceCtorEq, Option.some.injEq] at stepped
      subst stepped
      rfl
  | advanceHead =>
      cases consumer <;> simp only [step, reduceCtorEq, Option.map_eq_some_iff] at stepped
      obtain ⟨moved, moves, rfl⟩ := stepped
      obtain ⟨_, _, rfl⟩ := Option.map_eq_some_iff.mp moves
      rfl

section Ring

variable {size : Nat} {ring : SpscFifo.Ring Value}

theorem reached_count (some_slots : 1 ≤ size) (word : size < 2 ^ 32) (created : Created size ring)
    {s : State (SpscFifo.Ring Value) Value}
    (reached : Reaches (step ringParts) free (· = fresh ring) s) :
    s.fifo.size = size ∧ ∃ count, Inv s count := by
  refine reached.invariant (fun s => s.fifo.size = size ∧ ∃ count, Inv s count) ?_ ?_
  · rintro _ rfl
    exact ⟨created.2.2, 0, fresh_inv size some_slots word ring created⟩
  · rintro before action after ⟨same, count, inv⟩ _ stepped
    exact ⟨(step_size action stepped).trans same, inv_step inv action after stepped⟩

theorem ring_exact (some_slots : 1 ≤ size) (word : size < 2 ^ 32) (created : Created size ring) :
    SizeExact ringParts ring fun ring => distance ring.tail ring.head ring.size := by
  intro s reached _
  obtain ⟨_, count, inv⟩ := reached_count some_slots word created reached
  simp only [inv_distance inv, inv_accounts inv]

theorem fills_up (value : Value) (word : size < 2 ^ 32) (created : Created size ring) (k : Nat)
    (room : k < size) : ∃ s, Reaches (step ringParts) free (· = fresh ring) s ∧
      BetweenCalls s ∧ s.put.length = k ∧ s.got = [] := by
  induction k with
  | zero => exact ⟨fresh ring, .start rfl, ⟨rfl, rfl⟩, rfl, rfl⟩
  | succ k ih =>
      obtain ⟨s, reached, ⟨producer, consumer⟩, put, got⟩ := ih (by omega)
      obtain ⟨same, count, inv⟩ := reached_count (by omega) word created reached
      have queued := inv_accounts inv
      rw [put, got, List.length_nil, Nat.add_zero] at queued
      have space : ¬ (s.fifo.tail + 1) % s.fifo.size = s.fifo.head := by
        rw [inv.full_iff]
        omega
      have next := advance_inside _ _ inv.tail_inside inv.width
      have accepted : ∃ fifo, putWith ringParts s.fifo value = some (fifo, false) := by
        simp [putWith, ringParts, next, space]
      obtain ⟨fifo, accepted⟩ := accepted
      have executed := (put_steps ringParts s producer value fifo).2 accepted
      exact ⟨_, exec_reaches _ reached (allowed_free _ _ _) executed, ⟨producer, consumer⟩,
        by simp [put], got⟩

/-- The 256th put turns an answer of one byte back to 0. -/
theorem byte_exact_iff (value : Value) (some_slots : 1 ≤ size) (word : size < 2 ^ 32)
    (created : Created size ring) :
    (SizeExact ringParts ring fun ring => distance ring.tail ring.head ring.size % 2 ^ 8) ↔
      size ≤ 256 := by
  constructor
  · intro exact_size
    by_contra large
    obtain ⟨s, reached, between, put, got⟩ := fills_up value word created 256 (by omega)
    obtain ⟨_, count, inv⟩ := reached_count some_slots word created reached
    have queued := inv_accounts inv
    have answer := exact_size s reached between
    rw [put, got, List.length_nil] at queued answer
    simp only [inv_distance inv] at answer
    omega
  · intro small s reached _
    obtain ⟨same, count, inv⟩ := reached_count some_slots word created reached
    have room := inv.room
    have below : count < 2 ^ 8 := by omega
    simp only [inv_distance inv, Nat.mod_eq_of_lt below]
    exact inv_accounts inv

end Ring

/-! A FIFO with its values forgotten. The size queries do not see the difference,
and a FIFO of units is a ring for every `element_size`. -/

def unitFifo (fifo : Fifo Value) : Fifo Unit :=
  ⟨fifo.mutex, fifo.full, fifo.empty, fifo.size, 1, fifo.head, fifo.tail, fun _ => ()⟩

def unitRing (fifo : Fifo Value) : SpscFifo.Ring Unit := asRing (unitFifo fifo)

def forgetProducer : Producer Value → Producer Unit
  | .idle => .idle
  | .checked _ => .checked ()
  | .stored _ => .stored ()

def forgetConsumer : Consumer Value → Consumer Unit
  | .idle => .idle
  | .checked => .checked
  | .loaded _ => .loaded ()

def forgetAction : SpscFifo.Action Value → SpscFifo.Action Unit
  | .testFull _ => .testFull ()
  | .store => .store
  | .advanceTail => .advanceTail
  | .testEmpty => .testEmpty
  | .load _ => .load ()
  | .advanceHead => .advanceHead

def forget (s : State (Fifo Value) Value) : State (SpscFifo.Ring Unit) Unit where
  fifo := unitRing s.fifo
  producer := forgetProducer s.producer
  consumer := forgetConsumer s.consumer
  put := s.put.map fun _ => ()
  got := s.got.map fun _ => ()

theorem copyIn_forgotten (fifo : Fifo Value) (value : Value) :
    unitFifo (MpmcFifo.copyIn fifo value) = unitFifo fifo := by
  rw [MpmcFifo.copyIn]
  split <;> rfl

theorem step_forget {s after : State (Fifo Value) Value} (action : SpscFifo.Action Value)
    (stepped : step nonblockParts s action = some after) :
    step ringParts (forget s) (forgetAction action) = some (forget after) := by
  obtain ⟨fifo, producer, consumer, put, got⟩ := s
  cases action with
  | testFull value =>
      cases producer <;> simp only [step, reduceCtorEq, Option.map_eq_some_iff] at stepped
      obtain ⟨full, answer, rfl⟩ := stepped
      have same : ringParts.full (unitRing fifo) = some full := answer
      cases full <;> simp [step, forget, forgetAction, forgetProducer, same]
  | store =>
      cases producer <;> simp only [step, reduceCtorEq, Option.some.injEq] at stepped
      subst stepped
      simp only [step, forget, forgetAction, forgetProducer, nonblockParts, unitRing,
        copyIn_forgotten]
      rfl
  | advanceTail =>
      cases producer <;> simp only [step, reduceCtorEq, Option.map_eq_some_iff] at stepped
      obtain ⟨moved, moves, rfl⟩ := stepped
      obtain ⟨tail, next, rfl⟩ := Option.map_eq_some_iff.mp moves
      simp [step, forget, forgetAction, forgetProducer, ringParts, unitRing, asRing, unitFifo, next]
  | testEmpty =>
      cases consumer <;> simp only [step, reduceCtorEq, Option.some.injEq] at stepped
      subst stepped
      by_cases empty : fifo.head = fifo.tail <;>
        simp [step, forget, forgetAction, forgetConsumer, ringParts, nonblockParts, unitRing, asRing,
          unitFifo, empty]
  | load buffer =>
      cases consumer <;> simp only [step, reduceCtorEq, Option.some.injEq] at stepped
      subst stepped
      rfl
  | advanceHead =>
      cases consumer <;> simp only [step, reduceCtorEq, Option.map_eq_some_iff] at stepped
      obtain ⟨moved, moves, rfl⟩ := stepped
      obtain ⟨head, next, rfl⟩ := Option.map_eq_some_iff.mp moves
      simp [step, forget, forgetAction, forgetConsumer, ringParts, unitRing, asRing, unitFifo, next]

theorem nonblock_exact {size : Nat} {fifo : Fifo Value} (some_slots : 1 ≤ size)
    (word : size < 2 ^ 32) (created : Created size (unitRing fifo)) :
    SizeExact nonblockParts fifo fifoSizeNonblocking := by
  rintro s reached -
  have ring_run : Reaches (step ringParts) free (· = fresh (unitRing fifo)) (forget s) := by
    induction reached with
    | start begun => exact .start (begun ▸ rfl)
    | next action _ _ stepped ih => exact .next _ ih trivial (step_forget action stepped)
  obtain ⟨_, count, inv⟩ := reached_count some_slots word created ring_run
  have queued := inv_accounts inv
  have same : fifoSizeNonblocking s.fifo = count := inv_distance inv
  simpa only [same, forget, List.length_map] using queued

section Threads

variable {Thread : Type}

def forgetTransfer : MpmcFifo.Transfer Value → MpmcFifo.Transfer Unit
  | .put _ => .put ()
  | .get => .get

def forgetStage : MpmcFifo.Stage Value → MpmcFifo.Stage Unit
  | .outside => .outside
  | .counted transfer => .counted (forgetTransfer transfer)
  | .locked transfer => .locked (forgetTransfer transfer)
  | .copied transfer => .copied (forgetTransfer transfer)
  | .advanced transfer => .advanced (forgetTransfer transfer)
  | .unlocked transfer => .unlocked (forgetTransfer transfer)

def forgetCall : MpmcFifo.Action Thread Value → MpmcFifo.Action Thread Unit
  | .enter thread transfer => .enter thread (forgetTransfer transfer)
  | .lock thread => .lock thread
  | .copy thread _ => .copy thread ()
  | .advance thread => .advance thread
  | .unlock thread => .unlock thread
  | .leave thread => .leave thread

def forgetValues (s : MpmcFifo.State Thread Value) : MpmcFifo.State Thread Unit where
  fifo := unitFifo s.fifo
  stage thread := forgetStage (s.stage thread)
  put := s.put.map fun _ => ()
  got := s.got.map fun _ => ()

theorem takeUnit_forgotten (fifo : Fifo Value) (transfer : MpmcFifo.Transfer Value) :
    MpmcFifo.takeUnit (unitFifo fifo) (forgetTransfer transfer) =
      (MpmcFifo.takeUnit fifo transfer).map unitFifo := by
  cases transfer <;> simp only [MpmcFifo.takeUnit, forgetTransfer, Option.map_map] <;> rfl

theorem giveUnit_forgotten (fifo : Fifo Value) (transfer : MpmcFifo.Transfer Value) :
    MpmcFifo.giveUnit (unitFifo fifo) (forgetTransfer transfer) =
      (MpmcFifo.giveUnit fifo transfer).map unitFifo := by
  cases transfer <;> simp only [MpmcFifo.giveUnit, forgetTransfer, Option.map_map] <;> rfl

theorem advanceIndex_forgotten (fifo : Fifo Value) (transfer : MpmcFifo.Transfer Value) :
    MpmcFifo.advanceIndex (unitFifo fifo) (forgetTransfer transfer) =
      (MpmcFifo.advanceIndex fifo transfer).map unitFifo := by
  cases transfer <;> simp only [MpmcFifo.advanceIndex, MpmcFifo.advanceTail, MpmcFifo.advanceHead,
    forgetTransfer, Option.map_map] <;> rfl

theorem copyElement_forgotten (s : MpmcFifo.State Thread Value) (buffer : Value)
    (transfer : MpmcFifo.Transfer Value) :
    forgetValues (MpmcFifo.copyElement s buffer transfer) =
      MpmcFifo.copyElement (forgetValues s) () (forgetTransfer transfer) := by
  cases transfer with
  | put value =>
      simp only [MpmcFifo.copyElement, forgetTransfer, forgetValues, copyIn_forgotten, List.map_append]
      rfl
  | get =>
      simp only [MpmcFifo.copyElement, forgetTransfer, forgetValues, List.map_append]
      rfl

variable [DecidableEq Thread]

theorem moveTo_forgotten (s : MpmcFifo.State Thread Value) (thread : Thread)
    (stage : MpmcFifo.Stage Value) :
    forgetValues (MpmcFifo.moveTo s thread stage) =
      MpmcFifo.moveTo (forgetValues s) thread (forgetStage stage) := by
  simp only [forgetValues, MpmcFifo.moveTo]
  congr 1
  exact Function.comp_update forgetStage s.stage thread stage

theorem call_forget {s after : MpmcFifo.State Thread Value} (action : MpmcFifo.Action Thread Value)
    (stepped : MpmcFifo.step s action = some after) :
    MpmcFifo.step (forgetValues s) (forgetCall action) = some (forgetValues after) := by
  cases action with
  | enter thread transfer =>
      cases here : s.stage thread <;>
        simp only [MpmcFifo.step, here, Option.map_eq_some_iff, reduceCtorEq] at stepped
      obtain ⟨fifo, taken, rfl⟩ := stepped
      have forgotten := takeUnit_forgotten s.fifo transfer
      rw [taken, Option.map_some] at forgotten
      rw [moveTo_forgotten]
      simp only [forgetCall, MpmcFifo.step, forgetValues, here, forgetStage, forgotten,
        Option.map_some]
  | lock thread =>
      cases here : s.stage thread <;>
        simp only [MpmcFifo.step, here, Option.map_eq_some_iff, reduceCtorEq] at stepped
      obtain ⟨mutex, locked, rfl⟩ := stepped
      rw [moveTo_forgotten]
      simp only [forgetCall, MpmcFifo.step, forgetValues, here, forgetStage, unitFifo, locked,
        Option.map_some]
  | copy thread buffer =>
      cases here : s.stage thread <;>
        simp only [MpmcFifo.step, here, Option.some.injEq, reduceCtorEq] at stepped
      subst stepped
      rw [moveTo_forgotten, copyElement_forgotten]
      simp only [forgetCall, MpmcFifo.step, forgetValues, here, forgetStage]
  | advance thread =>
      cases here : s.stage thread <;>
        simp only [MpmcFifo.step, here, Option.map_eq_some_iff, reduceCtorEq] at stepped
      rename_i transfer
      obtain ⟨fifo, advanced, rfl⟩ := stepped
      have forgotten := advanceIndex_forgotten s.fifo transfer
      rw [advanced, Option.map_some] at forgotten
      rw [moveTo_forgotten]
      simp only [forgetCall, MpmcFifo.step, forgetValues, here, forgetStage, forgotten,
        Option.map_some]
  | unlock thread =>
      cases here : s.stage thread <;>
        simp only [MpmcFifo.step, here, Option.some.injEq, reduceCtorEq] at stepped
      subst stepped
      rw [moveTo_forgotten]
      simp only [forgetCall, MpmcFifo.step, forgetValues, here, forgetStage, unitFifo]
  | leave thread =>
      cases here : s.stage thread <;>
        simp only [MpmcFifo.step, here, Option.map_eq_some_iff, reduceCtorEq] at stepped
      rename_i transfer
      obtain ⟨fifo, given, rfl⟩ := stepped
      have forgotten := giveUnit_forgotten s.fifo transfer
      rw [given, Option.map_some] at forgotten
      rw [moveTo_forgotten]
      simp only [forgetCall, MpmcFifo.step, forgetValues, here, forgetStage, forgotten,
        Option.map_some]

def Quiet (s : MpmcFifo.State Thread Value) : Prop := ∀ thread, s.stage thread = .outside

def BlockingExact (Thread : Type) [DecidableEq Thread] (fifo : Fifo Value) : Prop :=
  ∀ s : MpmcFifo.State Thread Value, Reaches MpmcFifo.step free (· = MpmcFifo.created fifo) s →
    Quiet s → fifoSize s.fifo + s.got.length = s.put.length ∧
      fifoSizeNonblocking s.fifo + s.got.length = s.put.length

omit [DecidableEq Thread] in
/-- Between calls the count of `empty` and the two indices agree with the logs. -/
theorem quiet_exact [Fintype Thread] {n : Nat} {s : MpmcFifo.State Thread Value}
    (queued : MpmcFifo.Queued n s) (quiet : Quiet s) :
    fifoSize s.fifo + s.got.length = s.put.length ∧
      fifoSizeNonblocking s.fifo + s.got.length = s.put.length := by
  have nowhere (kind : MpmcFifo.Stage Value → Bool) (away : kind .outside = false) :
      Population.tally kind s.stage = 0 :=
    Population.tally_zero kind _ fun thread => by simp [quiet thread, away]
  have queue := queued.units.queue
  have space := queued.units.space
  have full := queued.units.full_nonneg
  have empty := queued.units.empty_nonneg
  have tail := queued.indexed.tail
  have head := queued.indexed.head
  have room := queued.indexed.room
  have word := queued.indexed.word
  rw [nowhere MpmcFifo.pending rfl] at queue
  rw [nowhere MpmcFifo.reserved rfl] at space
  rw [nowhere MpmcFifo.storing rfl, Nat.sub_zero] at tail
  rw [nowhere MpmcFifo.loading rfl, Nat.sub_zero] at head
  constructor
  · rw [fifoSize, Int.emod_eq_of_lt empty (by omega)]
    omega
  · rw [fifoSizeNonblocking, tail, head, distance_counts (by omega) (by omega)]
    omega

theorem blocking_exact [Fintype Thread] {n : Nat} {fifo : Fifo Value} (room : n < fifo.size)
    (word : fifo.size < 2 ^ 32) (created : Created fifo.size (unitRing fifo)) (mutex : fifo.mutex = 0)
    (full : fifo.full = n) (empty : fifo.empty = 0) : BlockingExact Thread fifo := by
  intro s reached quiet
  obtain ⟨head, tail, _⟩ := created
  have counted : MpmcFifo.Counted (unitFifo fifo) ⟨0, 0⟩ :=
    ⟨Nat.zero_lt_of_lt room, word, Or.inl rfl, tail.trans (Nat.zero_mod _).symm,
      head.trans (Nat.zero_mod _).symm⟩
  have queued : MpmcFifo.Queued n (forgetValues s) := by
    refine reached.invariant (fun s => MpmcFifo.Queued n (forgetValues s)) ?_ ?_
    · rintro _ rfl
      exact MpmcFifo.created_queued counted room mutex full empty
    · intro _ action _ before _ stepped
      exact MpmcFifo.queued_step _ _ before (call_forget action stepped)
  have forgotten := quiet_exact queued fun thread => congrArg forgetStage (quiet thread)
  simp only [forgetValues, List.length_map] at forgotten
  exact forgotten

end Threads

theorem ringInit_created {heapPtr elementBytes size ptr : Nat} {tree marked : Heap.Tree}
    {memory : Nat → Value} {ring : SpscFifo.Ring Value}
    (made : ringInit heapPtr tree memory size elementBytes = some (marked, some (ptr, ring))) :
    Created size ring := by
  obtain ⟨_, _, rfl⟩ := ringInit_some made
  exact ⟨rfl, rfl, rfl⟩

/-- For every capacity the three queries of 32 bits are exact, and `fifo8_size`
is exact just for the capacities whose largest count fits a byte. -/
theorem sizes_exact_iff (capacity : Nat) (some_slots : 1 ≤ capacity) (heapPtr : Nat)
    (tree marked : Heap.Tree) :
    (∀ (memory : Nat → BitVec 32) ptr fifo, sizeofRing + capacity * 4 ≤ heapSize →
      fifo32Init heapPtr tree memory capacity = some (marked, some (ptr, fifo)) →
        SizeExact ringParts fifo fifo32Size) ∧
    (∀ (memory : Nat → BitVec 8) ptr fifo, sizeofRing + capacity ≤ heapSize →
      fifo8Init heapPtr tree memory capacity = some (marked, some (ptr, fifo)) →
        (SizeExact ringParts fifo fifo8Size ↔ capacity ≤ 256)) ∧
    (∀ elementSize (memory : Nat → Value) fifo, sizeofFifo + capacity * elementSize ≤ heapSize →
      MpmcFifo.fifoInit heapPtr tree memory capacity elementSize = some (marked, some fifo) →
        SizeExact nonblockParts fifo fifoSizeNonblocking ∧
        (1 ≤ elementSize → ∀ (Thread : Type) [Fintype Thread] [DecidableEq Thread],
          BlockingExact Thread fifo)) := by
  have small : heapSize = 131072 := rfl
  refine ⟨fun memory ptr fifo fits made => ?_, fun memory ptr fifo fits made => ?_, ?_⟩
  · exact ring_exact some_slots (by omega) (ringInit_created made)
  · exact byte_exact_iff 0 some_slots (by omega) (ringInit_created made)
  · intro elementSize memory fifo fits made
    obtain ⟨_, rfl⟩ := MpmcFifo.fifoInit_some made
    have header : sizeofFifo = 40 := rfl
    have bytes : MpmcFifo.initByteCount capacity elementSize = sizeofFifo + capacity * elementSize :=
      Nat.mod_eq_of_lt (by omega)
    refine ⟨nonblock_exact (by omega) (Nat.mod_lt _ (by decide)) ⟨rfl, rfl, rfl⟩, ?_⟩
    intro positive Thread _ _
    have elements := Nat.mul_le_mul_left capacity positive
    have counts : MpmcFifo.toInt32 capacity = capacity := if_pos (by omega)
    exact blocking_exact (by simp only; omega) (Nat.mod_lt _ (by decide)) ⟨rfl, rfl, rfl⟩ rfl counts
      rfl

theorem sizes_exact_ten :
    ∃ marked ptr fifo, fifo8Init Heap.sramPlacement.heapPtr Heap.heapInit (fun _ => 0) 10 =
        some (marked, some (ptr, fifo)) ∧ SizeExact ringParts fifo fifo8Size := by
  obtain ⟨⟨marked, found⟩, made, there⟩ :
      ∃ made ∈ fifo8Init Heap.sramPlacement.heapPtr Heap.heapInit (fun _ => 0) 10,
        made.2.isSome := by decide +kernel
  obtain ⟨⟨ptr, fifo⟩, rfl⟩ := Option.isSome_iff_exists.mp there
  have exact_sizes := @sizes_exact_iff Nat 10 (by decide) Heap.sramPlacement.heapPtr Heap.heapInit
    marked
  exact ⟨marked, ptr, fifo, made, (exact_sizes.2.1 _ ptr fifo (by decide) made).mpr (by decide)⟩

/-- 256 bytes in a FIFO of 300. -/
theorem full_byte_counts_zero :
    ∃ marked ptr fifo, fifo8Init Heap.sramPlacement.heapPtr Heap.heapInit (fun _ => 0) 300 =
        some (marked, some (ptr, fifo)) ∧
      ∃ s, Reaches (step ringParts) free (· = fresh fifo) s ∧ BetweenCalls s ∧
        s.put.length = 256 ∧ s.got.length = 0 ∧ fifo8Size s.fifo = 0 := by
  obtain ⟨⟨marked, found⟩, made, there⟩ :
      ∃ made ∈ fifo8Init Heap.sramPlacement.heapPtr Heap.heapInit (fun _ => 0) 300,
        made.2.isSome := by decide +kernel
  obtain ⟨⟨ptr, fifo⟩, rfl⟩ := Option.isSome_iff_exists.mp there
  have created := ringInit_created made
  obtain ⟨s, reached, between, put, got⟩ := fills_up 0 (by decide) created 256 (by decide)
  obtain ⟨_, count, inv⟩ := reached_count (by decide) (by decide) created reached
  have queued := inv_accounts inv
  rw [put, got, List.length_nil, Nat.add_zero] at queued
  refine ⟨marked, ptr, fifo, made, s, reached, between, put, by rw [got]; rfl, ?_⟩
  rw [fifo8Size, inv_distance inv, queued]
  rfl

end MulticoreRtos.FifoSizes
