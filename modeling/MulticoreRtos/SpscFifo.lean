import MulticoreRtos.CyclicBuffer
import MulticoreRtos.MpmcFifo
import MulticoreRtos.Transition

/-!
The FIFOs of `os/ipc.c` that take no lock: `fifo32`, `fifo8` and the nonblocking
pair of the MPMC FIFO. A put and a get are three steps each, and the steps of one
producer and one consumer interleave. Each step reads the indices as they are in
memory at that moment.
-/

namespace MulticoreRtos.SpscFifo

open CyclicBuffer Transition

variable {Fifo Value : Type}

/-- `FIFO32_t` and `FIFO8_t`, which differ in the type of `data[]` only. -/
structure Ring (Value : Type) where
  head : Nat
  tail : Nat
  size : Nat
  data : Nat → Value

abbrev Fifo32 := Ring (BitVec 32)
abbrev Fifo8 := Ring (BitVec 8)

/-- The statements of a put and of a get. `load` is given what the caller's
buffer held before. -/
structure Parts (Fifo Value : Type) where
  full : Fifo → Option Bool
  store : Fifo → Value → Fifo
  advanceTail : Fifo → Option Fifo
  empty : Fifo → Bool
  load : Fifo → Value → Value
  advanceHead : Fifo → Option Fifo

def ringParts : Parts (Ring Value) Value where
  full ring := (MpmcFifo.advance ring.tail ring.size).map fun next => next = ring.head
  store ring value := { ring with data := Function.update ring.data ring.tail value }
  advanceTail ring :=
    (MpmcFifo.advance ring.tail ring.size).map fun tail => { ring with tail := tail }
  empty ring := ring.head = ring.tail
  load ring _ := ring.data ring.head
  advanceHead ring :=
    (MpmcFifo.advance ring.head ring.size).map fun head => { ring with head := head }

def nonblockParts : Parts (MpmcFifo.Fifo Value) Value where
  full fifo := (MpmcFifo.advance fifo.tail fifo.size).map fun next => next = fifo.head
  store := MpmcFifo.copyIn
  advanceTail := MpmcFifo.advanceTail
  empty fifo := fifo.head = fifo.tail
  load := MpmcFifo.copyOut
  advanceHead := MpmcFifo.advanceHead

def putWith (parts : Parts Fifo Value) (fifo : Fifo) (value : Value) : Option (Fifo × Bool) := do
  let full ← parts.full fifo
  if full then some (fifo, true)
  else
    let moved ← parts.advanceTail (parts.store fifo value)
    some (moved, false)

def getWith (parts : Parts Fifo Value) (fifo : Fifo) (buffer : Value) : Option (Fifo × Value) :=
  (parts.advanceHead fifo).map fun moved => (moved, parts.load fifo buffer)

/-- `none`: the caller is suspended until there is something to read. -/
def waitingGet (ring : Ring Value) (buffer : Value) : Option (Ring Value × Value) :=
  if ring.head = ring.tail then none else getWith ringParts ring buffer

def fifo32Put (fifo : Fifo32) (data : BitVec 32) : Option (Fifo32 × Bool) :=
  putWith ringParts fifo data

def fifo32Get (fifo : Fifo32) : Option (Fifo32 × BitVec 32) := waitingGet fifo 0

def fifo8Put (fifo : Fifo8) (data : BitVec 8) : Option (Fifo8 × Bool) :=
  putWith ringParts fifo data

def fifo8Get (fifo : Fifo8) : Option (Fifo8 × BitVec 8) := waitingGet fifo 0

inductive Producer (Value : Type) where
  | idle
  | checked (value : Value)
  | stored (value : Value)

inductive Consumer (Value : Type) where
  | idle
  | checked
  | loaded (value : Value)

/-- `put` and `got` are the values of the puts that have returned 0 and of the
gets that have returned. -/
structure State (Fifo Value : Type) where
  fifo : Fifo
  producer : Producer Value
  consumer : Consumer Value
  put : List Value
  got : List Value

inductive Action (Value : Type) where
  | testFull (value : Value)
  | store
  | advanceTail
  | testEmpty
  | load (buffer : Value)
  | advanceHead

def step (parts : Parts Fifo Value) (s : State Fifo Value) : Action Value → Option (State Fifo Value)
  | .testFull value =>
      match s.producer with
      | .idle => (parts.full s.fifo).map fun full =>
          if full then s else { s with producer := .checked value }
      | _ => none
  | .store =>
      match s.producer with
      | .checked value =>
          some { s with fifo := parts.store s.fifo value, producer := .stored value }
      | _ => none
  | .advanceTail =>
      match s.producer with
      | .stored value => (parts.advanceTail s.fifo).map fun moved =>
          { s with fifo := moved, producer := .idle, put := s.put ++ [value] }
      | _ => none
  | .testEmpty =>
      match s.consumer with
      | .idle => some (if parts.empty s.fifo then s else { s with consumer := .checked })
      | _ => none
  | .load buffer =>
      match s.consumer with
      | .checked => some { s with consumer := .loaded (parts.load s.fifo buffer) }
      | _ => none
  | .advanceHead =>
      match s.consumer with
      | .loaded value => (parts.advanceHead s.fifo).map fun moved =>
          { s with fifo := moved, consumer := .idle, got := s.got ++ [value] }
      | _ => none

def fresh (fifo : Fifo) : State Fifo Value := ⟨fifo, .idle, .idle, [], []⟩

def Producer.pending : Producer Value → List Value
  | .idle => []
  | .checked value => [value]
  | .stored value => [value]

def Consumer.inHand : Consumer Value → List Value
  | .idle => []
  | .checked => []
  | .loaded value => [value]

def accepted (s : State Fifo Value) : List Value := s.put ++ s.producer.pending

def obtained (s : State Fifo Value) : List Value := s.got ++ s.consumer.inHand

def queued (s : State Fifo Value) : Nat := s.put.length - s.got.length

structure Correct (s : State (Ring Value) Value) : Prop where
  inside : s.fifo.head < s.fifo.size ∧ s.fifo.tail < s.fifo.size
  order : obtained s <+: accepted s
  unread : s.put = s.got ++ contents s.fifo.size s.fifo.data s.fifo.head (queued s)
  apart : ∀ value, s.producer = .checked value →
    ∀ k < queued s, cell s.fifo.size s.fifo.head k ≠ s.fifo.tail
  room : (accepted s).length - s.got.length ≤ s.fifo.size - 1

structure Inv (s : State (Ring Value) Value) (count : Nat) : Prop where
  head : s.fifo.head < s.fifo.size
  width : s.fifo.size < 2 ^ 32
  tail : s.fifo.tail = cell s.fifo.size s.fifo.head count
  values : s.put = s.got ++ contents s.fifo.size s.fifo.data s.fifo.head count
  room : count + s.producer.pending.length < s.fifo.size
  stored : ∀ value, s.producer = .stored value → s.fifo.data s.fifo.tail = value
  checked : s.consumer ≠ .idle → 0 < count
  loaded : ∀ value, s.consumer = .loaded value → s.fifo.data s.fifo.head = value

theorem advance_inside (index size : Nat) (inside : index < size) (width : size < 2 ^ 32) :
    MpmcFifo.advance index size = some ((index + 1) % size) := by
  rw [MpmcFifo.advance, if_neg (by omega), Nat.mod_eq_of_lt (show index + 1 < 2 ^ 32 by omega)]

section Steps
variable {s : State (Ring Value) Value} {count : Nat}

theorem Inv.tail_inside (inv : Inv s count) : s.fifo.tail < s.fifo.size := by
  rw [inv.tail]
  exact cell_inside _ _ _ (Nat.zero_lt_of_lt inv.head)

theorem Inv.queued (inv : Inv s count) : queued s = count := by
  rw [SpscFifo.queued, inv.values, List.length_append, contents_length, Nat.add_sub_cancel_left]

theorem Inv.apart (inv : Inv s count) (k : Nat) (low : k < count) :
    cell s.fifo.size s.fifo.head k ≠ s.fifo.tail := by
  have room := inv.room
  intro same
  rw [inv.tail] at same
  have equal := cell_inj _ _ _ _ (by omega) (by omega) same
  omega

theorem Inv.full_iff (inv : Inv s count) :
    (s.fifo.tail + 1) % s.fifo.size = s.fifo.head ↔ count + 1 = s.fifo.size := by
  have room := inv.room
  rw [inv.tail, cell_succ, cell_start _ _ _ inv.head (by omega)]
  omega

theorem Inv.empty_iff (inv : Inv s count) : s.fifo.head = s.fifo.tail ↔ count = 0 := by
  have room := inv.room
  rw [inv.tail, eq_comm, cell_start _ _ _ inv.head (by omega)]
  omega

theorem testFull_inv (inv : Inv s count) (value : Value) (after : State (Ring Value) Value)
    (stepped : step ringParts s (.testFull value) = some after) : Inv after count := by
  cases producer : s.producer with
  | idle =>
      simp only [step, producer, ringParts, advance_inside _ _ inv.tail_inside inv.width,
        Option.map_some, Option.some.injEq] at stepped
      by_cases full : (s.fifo.tail + 1) % s.fifo.size = s.fifo.head
      · simp only [full, decide_true, if_true] at stepped
        rw [← stepped]
        exact inv
      · simp only [full, decide_false, Bool.false_eq_true, if_false] at stepped
        have room : count + 1 < s.fifo.size := by
          have low := inv.room
          rw [inv.full_iff] at full
          omega
        rw [← stepped]
        exact ⟨inv.head, inv.width, inv.tail, inv.values, room, by simp, inv.checked, inv.loaded⟩
  | checked _ => simp [step, producer] at stepped
  | stored _ => simp [step, producer] at stepped

theorem store_inv (inv : Inv s count) (after : State (Ring Value) Value)
    (stepped : step ringParts s .store = some after) : Inv after count := by
  cases producer : s.producer with
  | checked value =>
      simp only [step, producer, ringParts, Option.some.injEq] at stepped
      have room := inv.room
      rw [producer] at room
      have kept := contents_store s.fifo.size s.fifo.data s.fifo.head count s.fifo.tail value inv.head
        inv.apart
      have loaded : ∀ old, s.consumer = .loaded old →
          Function.update s.fifo.data s.fifo.tail value s.fifo.head = old := by
        intro old reading
        have first := inv.apart 0 (inv.checked (by rw [reading]; simp))
        rw [cell_zero _ _ inv.head] at first
        rw [Function.update_of_ne first, inv.loaded old reading]
      rw [← stepped]
      exact ⟨inv.head, inv.width, inv.tail, by rw [inv.values, kept], room,
        by simp, inv.checked, loaded⟩
  | idle => simp [step, producer] at stepped
  | stored _ => simp [step, producer] at stepped

theorem advanceTail_inv (inv : Inv s count) (after : State (Ring Value) Value)
    (stepped : step ringParts s .advanceTail = some after) : Inv after (count + 1) := by
  cases producer : s.producer with
  | stored value =>
      simp only [step, producer, ringParts, advance_inside _ _ inv.tail_inside inv.width,
        Option.map_some, Option.some.injEq] at stepped
      have room := inv.room
      rw [producer] at room
      have last := inv.stored value producer
      rw [inv.tail] at last
      rw [← stepped]
      refine ⟨inv.head, inv.width, by rw [inv.tail, cell_succ], ?_, room, by simp,
        fun _ => Nat.succ_pos count, inv.loaded⟩
      rw [contents_push _ _ _ _ inv.head, last, ← List.append_assoc, ← inv.values]
  | idle => simp [step, producer] at stepped
  | checked _ => simp [step, producer] at stepped

theorem testEmpty_inv (inv : Inv s count) (after : State (Ring Value) Value)
    (stepped : step ringParts s .testEmpty = some after) : Inv after count := by
  cases consumer : s.consumer with
  | idle =>
      simp only [step, consumer, ringParts, Option.some.injEq] at stepped
      by_cases none_left : s.fifo.head = s.fifo.tail
      · simp only [none_left, decide_true, if_true] at stepped
        rw [← stepped]
        exact inv
      · simp only [none_left, decide_false, Bool.false_eq_true, if_false] at stepped
        have some_left : 0 < count := by
          rw [inv.empty_iff] at none_left
          omega
        rw [← stepped]
        exact ⟨inv.head, inv.width, inv.tail, inv.values, inv.room, inv.stored,
          fun _ => some_left, by simp⟩
  | checked => simp [step, consumer] at stepped
  | loaded _ => simp [step, consumer] at stepped

theorem load_inv (inv : Inv s count) (buffer : Value) (after : State (Ring Value) Value)
    (stepped : step ringParts s (.load buffer) = some after) : Inv after count := by
  cases consumer : s.consumer with
  | checked =>
      simp only [step, consumer, ringParts, Option.some.injEq] at stepped
      have some_left := inv.checked (by rw [consumer]; simp)
      rw [← stepped]
      exact ⟨inv.head, inv.width, inv.tail, inv.values, inv.room, inv.stored,
        fun _ => some_left, by simp⟩
  | idle => simp [step, consumer] at stepped
  | loaded _ => simp [step, consumer] at stepped

theorem advanceHead_inv (inv : Inv s count) (after : State (Ring Value) Value)
    (stepped : step ringParts s .advanceHead = some after) : Inv after (count - 1) := by
  cases consumer : s.consumer with
  | loaded value =>
      simp only [step, consumer, ringParts, advance_inside _ _ inv.head inv.width,
        Option.map_some, Option.some.injEq] at stepped
      have some_left := inv.checked (by rw [consumer]; simp)
      obtain ⟨rest, rfl⟩ : ∃ rest, count = rest + 1 := ⟨count - 1, by omega⟩
      have values := inv.values
      rw [contents, inv.loaded value consumer] at values
      have room := inv.room
      rw [← stepped]
      refine ⟨Nat.mod_lt _ (Nat.zero_lt_of_lt inv.head), inv.width, ?_, ?_, ?_, inv.stored, by simp,
        by simp⟩
      · rw [inv.tail, Nat.add_sub_cancel, cell_next]
      · rw [Nat.add_sub_cancel, List.append_assoc]
        exact values
      · show rest + 1 - 1 + s.producer.pending.length < s.fifo.size
        omega
  | idle => simp [step, consumer] at stepped
  | checked => simp [step, consumer] at stepped

theorem inv_step (inv : Inv s count) (action : Action Value) (after : State (Ring Value) Value)
    (stepped : step ringParts s action = some after) : ∃ count, Inv after count := by
  cases action with
  | testFull value => exact ⟨_, testFull_inv inv value after stepped⟩
  | store => exact ⟨_, store_inv inv after stepped⟩
  | advanceTail => exact ⟨_, advanceTail_inv inv after stepped⟩
  | testEmpty => exact ⟨_, testEmpty_inv inv after stepped⟩
  | load buffer => exact ⟨_, load_inv inv buffer after stepped⟩
  | advanceHead => exact ⟨_, advanceHead_inv inv after stepped⟩

theorem Inv.correct (inv : Inv s count) : Correct s := by
  have taken : s.consumer.inHand <+: contents s.fifo.size s.fifo.data s.fifo.head count := by
    cases consumer : s.consumer with
    | idle => exact List.nil_prefix
    | checked => exact List.nil_prefix
    | loaded value =>
        have some_left := inv.checked (by rw [consumer]; simp)
        obtain ⟨rest, rfl⟩ : ∃ rest, count = rest + 1 := ⟨count - 1, by omega⟩
        rw [contents, inv.loaded value consumer]
        exact ⟨_, rfl⟩
  refine ⟨⟨inv.head, inv.tail_inside⟩, ?_, by rw [inv.queued]; exact inv.values, ?_, ?_⟩
  · rw [obtained, accepted, inv.values, List.append_assoc]
    exact List.prefix_append_right_inj _ |>.mpr (taken.trans (List.prefix_append _ _))
  · intro _ _
    rw [inv.queued]
    exact inv.apart
  · have room := inv.room
    rw [accepted, inv.values, List.length_append, List.length_append, contents_length]
    omega

end Steps

def Created (size : Nat) (ring : Ring Value) : Prop :=
  ring.head = 0 ∧ ring.tail = 0 ∧ ring.size = size

theorem fresh_inv (size : Nat) (some_slots : 1 ≤ size) (width : size < 2 ^ 32) (ring : Ring Value)
    (created : Created size ring) : Inv (fresh ring : State (Ring Value) Value) 0 := by
  obtain ⟨head, tail, same⟩ := created
  have head_inside : ring.head < ring.size := by omega
  have room : 0 + 0 < ring.size := by omega
  have tail_start : ring.tail = cell ring.size ring.head 0 := by
    rw [cell_zero _ _ head_inside, head, tail]
  exact ⟨head_inside, same ▸ width, tail_start, rfl, room, by simp [fresh], by simp [fresh],
    by simp [fresh]⟩

theorem ring_correct (size : Nat) (some_slots : 1 ≤ size) (width : size < 2 ^ 32)
    (s : State (Ring Value) Value) (reached : Reaches (step ringParts) Transition.free
      (fun s => ∃ ring, Created size ring ∧ s = fresh ring) s) : Correct s := by
  obtain ⟨count, inv⟩ : ∃ count, Inv s count := by
    refine reached.invariant (fun s => ∃ count, Inv s count) ?_
      fun before action after ⟨count, inv⟩ _ => inv_step inv action after
    rintro _ ⟨ring, created, rfl⟩
    exact ⟨0, fresh_inv size some_slots width ring created⟩
  exact inv.correct

/-! A FIFO that is a ring with further fields makes the steps of the ring. -/

structure Refines (parts : Parts Fifo Value) (view : Fifo → Ring Value) (valid : Fifo → Prop) :
    Prop where
  full : ∀ fifo, parts.full fifo = ringParts.full (view fifo)
  store : ∀ fifo value, valid fifo →
    view (parts.store fifo value) = ringParts.store (view fifo) value ∧ valid (parts.store fifo value)
  advanceTail : ∀ fifo moved, parts.advanceTail fifo = some moved → valid fifo →
    ringParts.advanceTail (view fifo) = some (view moved) ∧ valid moved
  empty : ∀ fifo, parts.empty fifo = ringParts.empty (view fifo)
  load : ∀ fifo buffer, valid fifo → parts.load fifo buffer = ringParts.load (view fifo) buffer
  advanceHead : ∀ fifo moved, parts.advanceHead fifo = some moved → valid fifo →
    ringParts.advanceHead (view fifo) = some (view moved) ∧ valid moved

def State.view (view : Fifo → Ring Value) (s : State Fifo Value) : State (Ring Value) Value :=
  ⟨view s.fifo, s.producer, s.consumer, s.put, s.got⟩

section Views
variable {parts : Parts Fifo Value} {view : Fifo → Ring Value} {valid : Fifo → Prop}

theorem step_view (refines : Refines parts view valid) (s : State Fifo Value) (action : Action Value)
    (after : State Fifo Value) (good : valid s.fifo) (stepped : step parts s action = some after) :
    step ringParts (s.view view) action = some (after.view view) ∧ valid after.fifo := by
  obtain ⟨fifo, producer, consumer, put, got⟩ := s
  -- a unit in another stage cannot take the action, so those cases are empty
  cases action with
  | testFull value =>
      cases producer with
      | idle =>
          cases full : parts.full fifo with
          | none => simp [step, full] at stepped
          | some answer =>
              have same := (refines.full fifo).symm.trans full
              cases answer <;> simp only [step, full, Option.map_some, if_true, Bool.false_eq_true,
                if_false, Option.some.injEq] at stepped <;> subst stepped <;>
                exact ⟨by simp [step, State.view, same], good⟩
      | checked _ => simp [step] at stepped
      | stored _ => simp [step] at stepped
  | store =>
      cases producer with
      | checked value =>
          simp only [step, Option.some.injEq] at stepped
          obtain ⟨same, kept⟩ := refines.store fifo value good
          subst stepped
          exact ⟨by simp [step, State.view, same], kept⟩
      | idle => simp [step] at stepped
      | stored _ => simp [step] at stepped
  | advanceTail =>
      cases producer with
      | stored value =>
          cases moves : parts.advanceTail fifo with
          | none => simp [step, moves] at stepped
          | some moved =>
              simp only [step, moves, Option.map_some, Option.some.injEq] at stepped
              obtain ⟨same, kept⟩ := refines.advanceTail fifo moved moves good
              subst stepped
              exact ⟨by simp [step, State.view, same], kept⟩
      | idle => simp [step] at stepped
      | checked _ => simp [step] at stepped
  | testEmpty =>
      cases consumer with
      | idle =>
          have same := refines.empty fifo
          cases empty : parts.empty fifo <;> simp only [step, empty, if_true, Bool.false_eq_true,
            if_false, Option.some.injEq] at stepped <;> subst stepped <;>
            exact ⟨by simp [step, State.view, ← same, empty], good⟩
      | checked => simp [step] at stepped
      | loaded _ => simp [step] at stepped
  | load buffer =>
      cases consumer with
      | checked =>
          simp only [step, Option.some.injEq] at stepped
          subst stepped
          exact ⟨by simp [step, State.view, refines.load fifo buffer good], good⟩
      | idle => simp [step] at stepped
      | loaded _ => simp [step] at stepped
  | advanceHead =>
      cases consumer with
      | loaded value =>
          cases moves : parts.advanceHead fifo with
          | none => simp [step, moves] at stepped
          | some moved =>
              simp only [step, moves, Option.map_some, Option.some.injEq] at stepped
              obtain ⟨same, kept⟩ := refines.advanceHead fifo moved moves good
              subst stepped
              exact ⟨by simp [step, State.view, same], kept⟩
      | idle => simp [step] at stepped
      | checked => simp [step] at stepped

theorem reaches_view (refines : Refines parts view valid) {start : State Fifo Value → Prop}
    {ring_start : State (Ring Value) Value → Prop}
    (begins : ∀ s, start s → valid s.fifo ∧ ring_start (s.view view)) {s : State Fifo Value}
    (reached : Reaches (step parts) Transition.free start s) :
    valid s.fifo ∧ Reaches (step ringParts) Transition.free ring_start (s.view view) := by
  induction reached with
  | start begun => exact ⟨(begins _ begun).1, .start (begins _ begun).2⟩
  | next action _ allowed stepped ih =>
      obtain ⟨same, kept⟩ := step_view refines _ action _ ih.1 stepped
      exact ⟨kept, .next action ih.2 trivial same⟩

end Views

def asRing (fifo : MpmcFifo.Fifo Value) : Ring Value := ⟨fifo.head, fifo.tail, fifo.size, fifo.data⟩

theorem nonblock_refines :
    Refines (nonblockParts : Parts (MpmcFifo.Fifo Value) Value) asRing
      fun fifo => MpmcFifo.Copied fifo.elementSize where
  full _ := rfl
  store fifo value copied := by
    simp only [nonblockParts, MpmcFifo.copyIn, if_pos copied]
    exact ⟨rfl, copied⟩
  advanceTail fifo moved moves copied := by
    simp only [nonblockParts, MpmcFifo.advanceTail] at moves
    cases next : MpmcFifo.advance fifo.tail fifo.size with
    | none => simp [next] at moves
    | some tail =>
        simp only [next, Option.map_some, Option.some.injEq] at moves
        subst moves
        exact ⟨by simp [ringParts, asRing, next], copied⟩
  empty _ := rfl
  load fifo buffer copied := by simp only [nonblockParts, MpmcFifo.copyOut, if_pos copied]; rfl
  advanceHead fifo moved moves copied := by
    simp only [nonblockParts, MpmcFifo.advanceHead] at moves
    cases next : MpmcFifo.advance fifo.head fifo.size with
    | none => simp [next] at moves
    | some head =>
        simp only [next, Option.map_some, Option.some.injEq] at moves
        subst moves
        exact ⟨by simp [ringParts, asRing, next], copied⟩

/-! A call that is not interrupted is its steps in a row. -/

theorem put_steps (parts : Parts Fifo Value) (s : State Fifo Value) (idle : s.producer = .idle)
    (value : Value) (fifo : Fifo) :
    (putWith parts s.fifo value = some (fifo, true) →
      exec (step parts) s [.testFull value] = some s) ∧
    (putWith parts s.fifo value = some (fifo, false) →
      exec (step parts) s [.testFull value, .store, .advanceTail] =
        some { s with fifo := fifo, put := s.put ++ [value] }) := by
  obtain ⟨current, producer, consumer, put, got⟩ := s
  obtain rfl : producer = .idle := idle
  cases full : parts.full current with
  | none => simp [putWith, full]
  | some answer =>
      cases answer with
      | true => simp [putWith, full, exec, step]
      | false =>
          cases moves : parts.advanceTail (parts.store current value) with
          | none => simp [putWith, full, moves]
          | some moved =>
              simp only [putWith, full, moves, exec, step, Option.map_some, Bool.false_eq_true,
                if_false, Option.bind_eq_bind, Option.bind_some, Option.some.injEq, Prod.mk.injEq,
                and_true, and_false, false_implies, true_and]
              rintro rfl
              rfl

theorem get_steps (parts : Parts Fifo Value) (s : State Fifo Value) (idle : s.consumer = .idle)
    (buffer value : Value) (fifo : Fifo) (some_left : parts.empty s.fifo = false)
    (answer : getWith parts s.fifo buffer = some (fifo, value)) :
    exec (step parts) s [.testEmpty, .load buffer, .advanceHead] =
      some { s with fifo := fifo, got := s.got ++ [value] } := by
  obtain ⟨current, producer, consumer, put, got⟩ := s
  obtain rfl : consumer = .idle := idle
  cases moves : parts.advanceHead current with
  | none => simp [getWith, moves] at answer
  | some moved =>
      simp only [getWith, moves, Option.map_some, Option.some.injEq, Prod.mk.injEq] at answer
      obtain ⟨rfl, rfl⟩ := answer
      simp only at some_left
      simp [exec, step, some_left, moves]

theorem nonblock_put (fifo : MpmcFifo.Fifo Value) (value : Value) :
    (MpmcFifo.fifoPutNonblock fifo value).map (fun done => (done.fifo, done.refused)) =
      putWith nonblockParts fifo value := by
  cases next : MpmcFifo.advance fifo.tail fifo.size with
  | none => simp [MpmcFifo.fifoPutNonblock, putWith, nonblockParts, next]
  | some tail =>
      by_cases full : tail = fifo.head
      · simp [MpmcFifo.fifoPutNonblock, putWith, nonblockParts, next, full]
      · cases moves : MpmcFifo.advanceTail (MpmcFifo.copyIn fifo value) <;>
          simp [MpmcFifo.fifoPutNonblock, putWith, nonblockParts, next, full, moves]

theorem nonblock_get (fifo : MpmcFifo.Fifo Value) (buffer : Value) (some_left : fifo.head ≠ fifo.tail) :
    (MpmcFifo.fifoGetNonblocking fifo buffer).map (fun done => (done.fifo, done.buffer)) =
      getWith nonblockParts fifo buffer := by
  cases moves : MpmcFifo.advanceHead fifo <;>
    simp [MpmcFifo.fifoGetNonblocking, getWith, nonblockParts, some_left, moves]

/-- A put is refused just when `size - 1` values are queued. -/
theorem refused_iff_full {s : State (Ring Value) Value} {count : Nat} (inv : Inv s count)
    (value : Value) : (putWith ringParts s.fifo value).map Prod.snd = some true ↔
      count + 1 = s.fifo.size := by
  have next := advance_inside _ _ inv.tail_inside inv.width
  rw [← inv.full_iff]
  by_cases full : (s.fifo.tail + 1) % s.fifo.size = s.fifo.head
  · simp [putWith, ringParts, next, full]
  · simp [putWith, ringParts, next, full]

theorem waits_iff_empty {s : State (Ring Value) Value} {count : Nat} (inv : Inv s count)
    (buffer : Value) : waitingGet s.fifo buffer = none ↔ count = 0 := by
  rw [waitingGet, ← inv.empty_iff]
  by_cases empty : s.fifo.head = s.fifo.tail
  · simp [empty]
  · simp [empty, getWith, ringParts, advance_inside _ _ inv.head inv.width]

theorem fifo32_full_or_empty {s : State Fifo32 (BitVec 32)} {count : Nat} (inv : Inv s count)
    (data : BitVec 32) : ((fifo32Put s.fifo data).map Prod.snd = some true ↔
      count + 1 = s.fifo.size) ∧ (fifo32Get s.fifo = none ↔ count = 0) :=
  ⟨refused_iff_full inv data, waits_iff_empty inv 0⟩

theorem fifo8_full_or_empty {s : State Fifo8 (BitVec 8)} {count : Nat} (inv : Inv s count)
    (data : BitVec 8) : ((fifo8Put s.fifo data).map Prod.snd = some true ↔
      count + 1 = s.fifo.size) ∧ (fifo8Get s.fifo = none ↔ count = 0) :=
  ⟨refused_iff_full inv data, waits_iff_empty inv 0⟩

/-- Under every interleaving of one producer and one consumer the three FIFOs
hand over a prefix of what was put, never fill a slot that is still unread and
never queue more than `size - 1` values. -/
theorem spsc_correct (size : Nat) (some_slots : 1 ≤ size) (width : size < 2 ^ 32) :
    (∀ s : State Fifo32 (BitVec 32), Reaches (step ringParts) Transition.free
      (fun s => ∃ fifo, Created size fifo ∧ s = fresh fifo) s → Correct s) ∧
    (∀ s : State Fifo8 (BitVec 8), Reaches (step ringParts) Transition.free
      (fun s => ∃ fifo, Created size fifo ∧ s = fresh fifo) s → Correct s) ∧
    (∀ s : State (MpmcFifo.Fifo Value) Value, Reaches (step nonblockParts) Transition.free
      (fun s => ∃ fifo, MpmcFifo.Copied fifo.elementSize ∧ Created size (asRing fifo) ∧
        s = fresh fifo) s → Correct (s.view asRing)) := by
  refine ⟨ring_correct size some_slots width, ring_correct size some_slots width, fun s reached => ?_⟩
  apply ring_correct size some_slots width
  refine (reaches_view nonblock_refines ?_ reached).2
  rintro _ ⟨fifo, copied, created, rfl⟩
  exact ⟨copied, asRing fifo, created, rfl⟩

def twoSlots : State Fifo32 (BitVec 32) := fresh ⟨0, 0, 2, fun _ => 0⟩

/-- A second put is refused while the first value is unread. -/
theorem spsc_correct_two_slots :
    ∃ s, exec (step ringParts) twoSlots
        [.testFull 7, .testEmpty, .store, .advanceTail, .testFull 8, .testEmpty, .load 0, .advanceHead] =
          some s ∧ s.put = [7] ∧ s.got = [7] ∧ Correct s := by
  obtain ⟨s, executed, put, got⟩ : ∃ s ∈ exec (step ringParts) twoSlots
      [.testFull 7, .testEmpty, .store, .advanceTail, .testFull 8, .testEmpty, .load 0, .advanceHead],
      s.put = [7] ∧ s.got = [7] := by decide +kernel
  have begun : Reaches (step ringParts) Transition.free
      (fun s => ∃ fifo, Created 2 fifo ∧ s = fresh fifo) twoSlots :=
    .start ⟨_, ⟨rfl, rfl, rfl⟩, rfl⟩
  have reached := exec_reaches _ begun (allowed_free _ _ _) executed
  exact ⟨s, executed, put, got, (@spsc_correct Nat 2 (by decide) (by decide)).1 s reached⟩

end MulticoreRtos.SpscFifo
