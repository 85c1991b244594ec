import Mathlib.Data.Fintype.Basic
import MulticoreRtos.Transition
import MulticoreRtos.Population
import MulticoreRtos.MpmcFifoBounds

/-!
The blocking FIFO under any number of producers and consumers. A step of a
thread is one semaphore operation, the copy of the element, or the move of the
index. `put` and `got` log the values copied in and out, in the order of the
mutex sections.
-/

namespace MulticoreRtos.MpmcFifo

open Transition Population

inductive Transfer (Value : Type) where
  | put (value : Value)
  | get

inductive Stage (Value : Type) where
  | outside
  -- `c_wait` has taken a unit of `full` (put) or `empty` (get)
  | counted (transfer : Transfer Value)
  | locked (transfer : Transfer Value)
  | copied (transfer : Transfer Value)
  | advanced (transfer : Transfer Value)
  -- `b_signal` is done, the unit for the other side is still to be given
  | unlocked (transfer : Transfer Value)

structure State (Thread Value : Type) where
  fifo : Fifo Value
  stage : Thread → Stage Value
  put : List Value
  got : List Value

inductive Action (Thread Value : Type) where
  | enter (thread : Thread) (transfer : Transfer Value)
  | lock (thread : Thread)
  | copy (thread : Thread) (buffer : Value)
  | advance (thread : Thread)
  | unlock (thread : Thread)
  | leave (thread : Thread)

variable {Thread Value : Type}

def created (fifo : Fifo Value) : State Thread Value := ⟨fifo, fun _ => .outside, [], []⟩

section Step
variable [DecidableEq Thread]

def takeUnit (fifo : Fifo Value) : Transfer Value → Option (Fifo Value)
  | .put _ => (cWait fifo.full).map fun full => { fifo with full := full }
  | .get => (cWait fifo.empty).map fun empty => { fifo with empty := empty }

def giveUnit (fifo : Fifo Value) : Transfer Value → Option (Fifo Value)
  | .put _ => (cSignal fifo.empty).map fun empty => { fifo with empty := empty }
  | .get => (cSignal fifo.full).map fun full => { fifo with full := full }

def advanceIndex (fifo : Fifo Value) : Transfer Value → Option (Fifo Value)
  | .put _ => advanceTail fifo
  | .get => advanceHead fifo

/-- `buffer` is what the caller's buffer of a `fifo_get` held. -/
def copyElement (s : State Thread Value) (buffer : Value) : Transfer Value → State Thread Value
  | .put value => { s with fifo := copyIn s.fifo value, put := s.put ++ [value] }
  | .get => { s with got := s.got ++ [copyOut s.fifo buffer] }

def moveTo (s : State Thread Value) (thread : Thread) (stage : Stage Value) : State Thread Value :=
  { s with stage := Function.update s.stage thread stage }

@[simp] theorem moveTo_stage (s : State Thread Value) (thread : Thread) (stage : Stage Value) :
    (moveTo s thread stage).stage = Function.update s.stage thread stage := rfl

@[simp] theorem moveTo_fifo (s : State Thread Value) (thread : Thread) (stage : Stage Value) :
    (moveTo s thread stage).fifo = s.fifo := rfl

@[simp] theorem moveTo_put (s : State Thread Value) (thread : Thread) (stage : Stage Value) :
    (moveTo s thread stage).put = s.put := rfl

@[simp] theorem moveTo_got (s : State Thread Value) (thread : Thread) (stage : Stage Value) :
    (moveTo s thread stage).got = s.got := rfl

def step (s : State Thread Value) : Action Thread Value → Option (State Thread Value)
  | .enter thread transfer =>
      match s.stage thread with
      | .outside =>
          (takeUnit s.fifo transfer).map fun fifo =>
            moveTo { s with fifo := fifo } thread (.counted transfer)
      | _ => none
  | .lock thread =>
      match s.stage thread with
      | .counted transfer =>
          (bWait s.fifo.mutex).map fun mutex =>
            moveTo { s with fifo := { s.fifo with mutex := mutex } } thread (.locked transfer)
      | _ => none
  | .copy thread buffer =>
      match s.stage thread with
      | .locked transfer => some (moveTo (copyElement s buffer transfer) thread (.copied transfer))
      | _ => none
  | .advance thread =>
      match s.stage thread with
      | .copied transfer =>
          (advanceIndex s.fifo transfer).map fun fifo =>
            moveTo { s with fifo := fifo } thread (.advanced transfer)
      | _ => none
  | .unlock thread =>
      match s.stage thread with
      | .advanced transfer =>
          some (moveTo { s with fifo := { s.fifo with mutex := bSignal } } thread (.unlocked transfer))
      | _ => none
  | .leave thread =>
      match s.stage thread with
      | .unlocked transfer =>
          (giveUnit s.fifo transfer).map fun fifo => moveTo { s with fifo := fifo } thread .outside
      | _ => none

end Step

/-! Kinds of stages. -/

/-- The call has taken a unit and not yet given one back. -/
def inFlight : Stage Value → Bool
  | .outside => false
  | _ => true

/-- The call accounts for an element in the queue that `empty` does not count. -/
def pending : Stage Value → Bool
  | .copied (.put _) => true
  | .advanced (.put _) => true
  | .unlocked (.put _) => true
  | .counted .get => true
  | .locked .get => true
  | _ => false

/-- The call accounts for a free slot that `full` does not count. -/
def reserved : Stage Value → Bool
  | .counted (.put _) => true
  | .locked (.put _) => true
  | .copied .get => true
  | .advanced .get => true
  | .unlocked .get => true
  | _ => false

def settled : Stage Value → Bool
  | .locked _ => true
  | .advanced _ => true
  | _ => false

def storing : Stage Value → Bool
  | .copied (.put _) => true
  | _ => false

def loading : Stage Value → Bool
  | .copied .get => true
  | _ => false

section Counts
variable [Fintype Thread]

/-- The two counts cover the queue and the free slots, up to the calls in flight. -/
structure Units (n : Nat) (s : State Thread Value) : Prop where
  full_nonneg : 0 ≤ s.fifo.full
  empty_nonneg : 0 ≤ s.fifo.empty
  queue : (s.put.length : Int) = s.got.length + s.fifo.empty + tally pending s.stage
  space : s.fifo.full + tally reserved s.stage + s.put.length = n + s.got.length

structure Indexed (n : Nat) (s : State Thread Value) : Prop where
  room : n < s.fifo.size
  word : s.fifo.size < 2 ^ 32
  copied : Copied s.fifo.elementSize
  mutex : s.fifo.mutex = tally settled s.stage + tally storing s.stage + tally loading s.stage
  single : s.fifo.mutex ≤ 1
  tail : s.fifo.tail = (s.put.length - tally storing s.stage) % s.fifo.size
  head : s.fifo.head = (s.got.length - tally loading s.stage) % s.fifo.size
  written : tally storing s.stage ≤ s.put.length
  read : tally loading s.stage ≤ s.got.length

structure Stored (s : State Thread Value) : Prop where
  slots : ∀ k, s.got.length ≤ k → k < s.put.length →
    s.put[k]? = some (s.fifo.data (k % s.fifo.size))
  copies : s.got <+: s.put

structure Queued (n : Nat) (s : State Thread Value) : Prop where
  units : Units n s
  indexed : Indexed n s
  stored : Stored s

structure Linearized (n : Nat) (s : State Thread Value) : Prop where
  order : s.got <+: s.put
  conserved : s.fifo.full + s.fifo.empty + tally inFlight s.stage = n
  bounded : s.put.length ≤ s.got.length + n

theorem Units.bounded {n : Nat} {s : State Thread Value} (units : Units n s) :
    s.put.length + tally reserved s.stage ≤ s.got.length + n := by
  have space := units.space
  have full := units.full_nonneg
  omega

theorem Units.nonempty {n : Nat} {s : State Thread Value} (units : Units n s) :
    s.got.length + tally pending s.stage ≤ s.put.length := by
  have queue := units.queue
  have empty := units.empty_nonneg
  omega

theorem queued_linearized {n : Nat} {s : State Thread Value} (queued : Queued n s) :
    Linearized n s := by
  have flight : tally inFlight s.stage = tally pending s.stage + tally reserved s.stage := by
    apply tally_split
    rintro (_ | (_ | _) | (_ | _) | (_ | _) | (_ | _) | (_ | _)) <;> rfl
  have queue := queued.units.queue
  have space := queued.units.space
  constructor
  · exact queued.stored.copies
  · omega
  · exact (Nat.le_add_right _ _).trans queued.units.bounded

theorem created_queued {n : Nat} {fifo : Fifo Value} (counted : Counted fifo ⟨0, 0⟩)
    (room : n < fifo.size) (mutex : fifo.mutex = 0) (full : fifo.full = n)
    (empty : fifo.empty = 0) : Queued n (created fifo : State Thread Value) := by
  have none_at (kind : Stage Value → Bool) (away : kind .outside = false) :
      tally kind (created fifo : State Thread Value).stage = 0 :=
    tally_zero kind _ fun _ => by simp [created, away]
  have no_storing := none_at storing rfl
  have no_loading := none_at loading rfl
  constructor
  · constructor
    · exact full.ge.trans' (Int.natCast_nonneg n)
    · exact empty.ge
    · rw [none_at pending rfl]
      simp [created, empty]
    · rw [none_at reserved rfl]
      simp [created, full]
  · constructor
    · exact room
    · exact counted.word
    · exact counted.copied
    · rw [none_at settled rfl, no_storing, no_loading]
      exact mutex
    · exact mutex.le.trans (Nat.zero_le 1)
    · rw [no_storing]
      exact counted.tail
    · rw [no_loading]
      exact counted.head
    · exact no_storing.le
    · exact no_loading.le
  · exact ⟨fun k _ below => absurd below (Nat.not_lt_zero k), List.nil_prefix⟩

section Steps
variable [DecidableEq Thread] {n : Nat} {s : State Thread Value} {thread : Thread}

theorem tally_moved (kind : Stage Value → Bool) {source : Stage Value}
    (here : s.stage thread = source) (target : Stage Value) :
    tally kind (Function.update s.stage thread target) + (kind source).toNat =
      tally kind s.stage + (kind target).toNat := by
  rw [← here]
  exact tally_update kind s.stage thread target

theorem tally_kept (kind : Stage Value → Bool) {source : Stage Value}
    (here : s.stage thread = source) (target : Stage Value) (same : kind source = kind target) :
    tally kind (Function.update s.stage thread target) = tally kind s.stage := by
  have moved := tally_moved kind here target
  rw [same] at moved
  exact Nat.add_right_cancel moved

theorem Indexed.outside {fifo : Fifo Value} {source target : Stage Value} (indexed : Indexed n s)
    (here : s.stage thread = source)
    (before : settled source = false ∧ storing source = false ∧ loading source = false)
    (after : settled target = false ∧ storing target = false ∧ loading target = false)
    (full empty : Int) (same : fifo = { s.fifo with full := full, empty := empty }) :
    Indexed n (moveTo { s with fifo := fifo } thread target) := by
  have kept_settled := tally_kept settled here target (before.1.trans after.1.symm)
  have kept_storing := tally_kept storing here target (before.2.1.trans after.2.1.symm)
  have kept_loading := tally_kept loading here target (before.2.2.trans after.2.2.symm)
  subst same
  constructor
  · exact indexed.room
  · exact indexed.word
  · exact indexed.copied
  · simpa only [moveTo_stage, moveTo_fifo, kept_settled, kept_storing, kept_loading] using indexed.mutex
  · exact indexed.single
  · simpa only [moveTo_stage, moveTo_fifo, moveTo_put, kept_storing] using indexed.tail
  · simpa only [moveTo_stage, moveTo_fifo, moveTo_got, kept_loading] using indexed.head
  · exact kept_storing.le.trans indexed.written
  · exact kept_loading.le.trans indexed.read

theorem queued_enter (queued : Queued n s) (transfer : Transfer Value)
    (here : s.stage thread = .outside) (fifo : Fifo Value)
    (taken : takeUnit s.fifo transfer = some fifo) :
    Queued n (moveTo { s with fifo := fifo } thread (.counted transfer)) := by
  have queue := queued.units.queue
  have space := queued.units.space
  have full := queued.units.full_nonneg
  have empty := queued.units.empty_nonneg
  cases transfer with
  | put value =>
      simp only [takeUnit, cWait, Option.map_eq_some_iff, Option.ite_none_left_eq_some, not_or,
        Option.some.injEq] at taken
      obtain ⟨_, ⟨⟨some_left, _⟩, rfl⟩, rfl⟩ := taken
      have kept := tally_kept pending here (.counted (.put value)) rfl
      have gained := tally_moved reserved here (.counted (.put value))
      refine ⟨?_, queued.indexed.outside here ⟨rfl, rfl, rfl⟩ ⟨rfl, rfl, rfl⟩ _ _ rfl,
        queued.stored.slots, queued.stored.copies⟩
      simp only [reserved, Bool.toNat_false, Bool.toNat_true] at gained
      constructor <;> simp only [moveTo_stage, moveTo_fifo, moveTo_put, moveTo_got] <;> omega
  | get =>
      simp only [takeUnit, cWait, Option.map_eq_some_iff, Option.ite_none_left_eq_some, not_or,
        Option.some.injEq] at taken
      obtain ⟨_, ⟨⟨some_left, _⟩, rfl⟩, rfl⟩ := taken
      have gained := tally_moved pending here (.counted .get)
      have kept := tally_kept reserved here (.counted .get) rfl
      refine ⟨?_, queued.indexed.outside here ⟨rfl, rfl, rfl⟩ ⟨rfl, rfl, rfl⟩ _ _ rfl,
        queued.stored.slots, queued.stored.copies⟩
      simp only [pending, Bool.toNat_false, Bool.toNat_true] at gained
      constructor <;> simp only [moveTo_stage, moveTo_fifo, moveTo_put, moveTo_got] <;> omega

theorem queued_leave (queued : Queued n s) (transfer : Transfer Value)
    (here : s.stage thread = .unlocked transfer) (fifo : Fifo Value)
    (given : giveUnit s.fifo transfer = some fifo) :
    Queued n (moveTo { s with fifo := fifo } thread .outside) := by
  have queue := queued.units.queue
  have space := queued.units.space
  have full := queued.units.full_nonneg
  have empty := queued.units.empty_nonneg
  cases transfer with
  | put value =>
      simp only [giveUnit, cSignal, Option.map_eq_some_iff, Option.ite_none_left_eq_some,
        Option.some.injEq] at given
      obtain ⟨_, ⟨_, rfl⟩, rfl⟩ := given
      have lost := tally_moved pending here .outside
      have kept := tally_kept reserved here .outside rfl
      refine ⟨?_, queued.indexed.outside here ⟨rfl, rfl, rfl⟩ ⟨rfl, rfl, rfl⟩ _ _ rfl,
        queued.stored.slots, queued.stored.copies⟩
      simp only [pending, Bool.toNat_false, Bool.toNat_true] at lost
      constructor <;> simp only [moveTo_stage, moveTo_fifo, moveTo_put, moveTo_got] <;> omega
  | get =>
      simp only [giveUnit, cSignal, Option.map_eq_some_iff, Option.ite_none_left_eq_some,
        Option.some.injEq] at given
      obtain ⟨_, ⟨_, rfl⟩, rfl⟩ := given
      have kept := tally_kept pending here .outside rfl
      have lost := tally_moved reserved here .outside
      refine ⟨?_, queued.indexed.outside here ⟨rfl, rfl, rfl⟩ ⟨rfl, rfl, rfl⟩ _ _ rfl,
        queued.stored.slots, queued.stored.copies⟩
      simp only [reserved, Bool.toNat_false, Bool.toNat_true] at lost
      constructor <;> simp only [moveTo_stage, moveTo_fifo, moveTo_put, moveTo_got] <;> omega

/-- A move inside the section that takes and gives no unit. -/
theorem Units.inside {fifo : Fifo Value} {source target : Stage Value} (units : Units n s)
    (here : s.stage thread = source) (same_pending : pending source = pending target)
    (same_reserved : reserved source = reserved target) (same_full : fifo.full = s.fifo.full)
    (same_empty : fifo.empty = s.fifo.empty) :
    Units n (moveTo { s with fifo := fifo } thread target) := by
  have kept_pending := tally_kept pending here target same_pending
  have kept_reserved := tally_kept reserved here target same_reserved
  constructor
  · exact units.full_nonneg.trans_eq same_full.symm
  · exact units.empty_nonneg.trans_eq same_empty.symm
  · simpa only [moveTo_stage, moveTo_fifo, moveTo_put, moveTo_got, kept_pending, same_empty]
      using units.queue
  · simpa only [moveTo_stage, moveTo_fifo, moveTo_put, moveTo_got, kept_reserved, same_full]
      using units.space

theorem queued_lock (queued : Queued n s) (transfer : Transfer Value)
    (here : s.stage thread = .counted transfer) (mutex : Nat)
    (locked : bWait s.fifo.mutex = some mutex) :
    Queued n (moveTo { s with fifo := { s.fifo with mutex := mutex } } thread (.locked transfer)) := by
  simp only [bWait, Option.ite_none_right_eq_some, Option.some.injEq] at locked
  obtain ⟨unlocked, rfl⟩ := locked
  have indexed := queued.indexed
  have mutex := indexed.mutex
  have gained := tally_moved settled here (.locked transfer)
  have kept_storing := tally_kept storing here (.locked transfer) (by cases transfer <;> rfl)
  have kept_loading := tally_kept loading here (.locked transfer) (by cases transfer <;> rfl)
  simp only [settled, Bool.toNat_false, Bool.toNat_true] at gained
  refine ⟨?_, ?_, queued.stored.slots, queued.stored.copies⟩
  · exact queued.units.inside here (by cases transfer <;> rfl) (by cases transfer <;> rfl) rfl rfl
  · refine ⟨indexed.room, indexed.word, indexed.copied, ?_, le_refl 1, ?_, ?_,
      kept_storing.le.trans indexed.written, kept_loading.le.trans indexed.read⟩
    · simp only [moveTo_stage, moveTo_fifo, kept_storing, kept_loading]
      omega
    · simpa only [moveTo_stage, moveTo_fifo, moveTo_put, kept_storing] using indexed.tail
    · simpa only [moveTo_stage, moveTo_fifo, moveTo_got, kept_loading] using indexed.head

theorem queued_unlock (queued : Queued n s) (transfer : Transfer Value)
    (here : s.stage thread = .advanced transfer) :
    Queued n
      (moveTo { s with fifo := { s.fifo with mutex := bSignal } } thread (.unlocked transfer)) := by
  have indexed := queued.indexed
  have mutex := indexed.mutex
  have single := indexed.single
  have lost := tally_moved settled here (.unlocked transfer)
  have kept_storing := tally_kept storing here (.unlocked transfer) (by cases transfer <;> rfl)
  have kept_loading := tally_kept loading here (.unlocked transfer) (by cases transfer <;> rfl)
  simp only [settled, Bool.toNat_false, Bool.toNat_true] at lost
  refine ⟨?_, ?_, queued.stored.slots, queued.stored.copies⟩
  · exact queued.units.inside here (by cases transfer <;> rfl) (by cases transfer <;> rfl) rfl rfl
  · refine ⟨indexed.room, indexed.word, indexed.copied, ?_, Nat.zero_le 1, ?_, ?_,
      kept_storing.le.trans indexed.written, kept_loading.le.trans indexed.read⟩
    · simp only [moveTo_stage, moveTo_fifo, kept_storing, kept_loading, bSignal]
      omega
    · simpa only [moveTo_stage, moveTo_fifo, moveTo_put, kept_storing] using indexed.tail
    · simpa only [moveTo_stage, moveTo_fifo, moveTo_got, kept_loading] using indexed.head

theorem advance_last (length size : Nat) (positive : 0 < size) (word : size < 2 ^ 32)
    (some_element : 1 ≤ length) : advance ((length - 1) % size) size = some (length % size) := by
  rw [advance_counted _ _ positive word, Nat.sub_add_cancel some_element]

theorem queued_advance (queued : Queued n s) (transfer : Transfer Value)
    (here : s.stage thread = .copied transfer) (fifo : Fifo Value)
    (advanced : advanceIndex s.fifo transfer = some fifo) :
    Queued n (moveTo { s with fifo := fifo } thread (.advanced transfer)) := by
  have indexed := queued.indexed
  have mutex := indexed.mutex
  have single := indexed.single
  have positive : 0 < s.fifo.size := (Nat.zero_le n).trans_lt indexed.room
  have gained := tally_moved settled here (.advanced transfer)
  simp only [settled, Bool.toNat_false, Bool.toNat_true] at gained
  -- the mutex is held, so the thread is the only one between its copy and its advance
  cases transfer with
  | put value =>
      have inside := tally_pos storing s.stage thread (by rw [here]; rfl)
      have lost := tally_moved storing here (.advanced (.put value))
      have kept := tally_kept loading here (.advanced (.put value)) rfl
      simp only [storing, Bool.toNat_false, Bool.toNat_true] at lost
      have one : tally storing s.stage = 1 := by omega
      have left : tally storing (Function.update s.stage thread (.advanced (.put value))) = 0 := by
        omega
      rw [advanceIndex, advanceTail, indexed.tail, one,
        advance_last _ _ positive indexed.word (one ▸ indexed.written), Option.map_some,
        Option.some.injEq] at advanced
      subst advanced
      refine ⟨?_, ?_, queued.stored.slots, queued.stored.copies⟩
      · exact queued.units.inside here rfl rfl rfl rfl
      · refine ⟨indexed.room, indexed.word, indexed.copied, ?_, single, ?_, ?_,
          left.le.trans (Nat.zero_le _), kept.le.trans indexed.read⟩
        · simp only [moveTo_stage, moveTo_fifo, kept]
          omega
        · simp only [moveTo_stage, moveTo_fifo, moveTo_put, left, Nat.sub_zero]
        · simpa only [moveTo_stage, moveTo_fifo, moveTo_got, kept] using indexed.head
  | get =>
      have inside := tally_pos loading s.stage thread (by rw [here]; rfl)
      have lost := tally_moved loading here (.advanced .get)
      have kept := tally_kept storing here (.advanced .get) rfl
      simp only [loading, Bool.toNat_false, Bool.toNat_true] at lost
      have one : tally loading s.stage = 1 := by omega
      have left : tally loading (Function.update s.stage thread (.advanced .get)) = 0 := by omega
      rw [advanceIndex, advanceHead, indexed.head, one,
        advance_last _ _ positive indexed.word (one ▸ indexed.read), Option.map_some,
        Option.some.injEq] at advanced
      subst advanced
      refine ⟨?_, ?_, queued.stored.slots, queued.stored.copies⟩
      · exact queued.units.inside here rfl rfl rfl rfl
      · refine ⟨indexed.room, indexed.word, indexed.copied, ?_, single, ?_, ?_,
          kept.le.trans indexed.written, left.le.trans (Nat.zero_le _)⟩
        · simp only [moveTo_stage, moveTo_fifo, kept]
          omega
        · simpa only [moveTo_stage, moveTo_fifo, moveTo_put, kept] using indexed.tail
        · simp only [moveTo_stage, moveTo_fifo, moveTo_got, left, Nat.sub_zero]

theorem slot_ne {low high size : Nat} (below : low < high) (near : high < low + size) :
    low % size ≠ high % size := by
  intro same
  have multiple := Nat.sub_mod_eq_zero_of_mod_eq same.symm
  rw [Nat.mod_eq_of_lt (by omega)] at multiple
  omega

theorem stored_put {size : Nat} {data : Nat → Value} {put got : List Value} (value : Value)
    (room : put.length < got.length + size)
    (slots : ∀ k, got.length ≤ k → k < put.length → put[k]? = some (data (k % size))) :
    ∀ k, got.length ≤ k → k < (put ++ [value]).length →
      (put ++ [value])[k]? =
        some (Function.update data (put.length % size) value (k % size)) := by
  intro k low high
  rw [List.length_append, List.length_singleton] at high
  by_cases last : k = put.length
  · subst last
    rw [Function.update_self, List.getElem?_append_right (le_refl _), Nat.sub_self]
    rfl
  · have below : k < put.length := lt_of_le_of_ne (Nat.lt_succ_iff.mp high) last
    rw [Function.update_of_ne (slot_ne below (by omega)), List.getElem?_append_left below]
    exact slots k low below

theorem copies_get {put got : List Value} {value : Value} (copies : got <+: put)
    (next : put[got.length]? = some value) : got ++ [value] <+: put := by
  obtain ⟨rest, rfl⟩ := copies
  rw [List.getElem?_append_right (le_refl _), Nat.sub_self] at next
  cases rest with
  | nil => simp at next
  | cons first others =>
      have same : first = value := by simpa using next
      exact ⟨others, by simp [same]⟩

omit [DecidableEq Thread] in
theorem Indexed.exact_indices (indexed : Indexed n s) {transfer : Transfer Value}
    (here : s.stage thread = .locked transfer) :
    tally storing s.stage = 0 ∧ tally loading s.stage = 0 ∧
      s.fifo.tail = s.put.length % s.fifo.size ∧ s.fifo.head = s.got.length % s.fifo.size := by
  have inside := tally_pos settled s.stage thread (by rw [here]; rfl)
  have mutex := indexed.mutex
  have single := indexed.single
  have no_storing : tally storing s.stage = 0 := by omega
  have no_loading : tally loading s.stage = 0 := by omega
  refine ⟨no_storing, no_loading, ?_, ?_⟩
  · rw [indexed.tail, no_storing, Nat.sub_zero]
  · rw [indexed.head, no_loading, Nat.sub_zero]

theorem queued_copy_put (queued : Queued n s) (value buffer : Value)
    (here : s.stage thread = .locked (.put value)) :
    Queued n (moveTo (copyElement s buffer (.put value)) thread (.copied (.put value))) := by
  have indexed := queued.indexed
  have mutex := indexed.mutex
  have queue := queued.units.queue
  have space := queued.units.space
  obtain ⟨no_storing, no_loading, tail, head⟩ := indexed.exact_indices here
  have p := tally_moved pending here (.copied (.put value))
  have r := tally_moved reserved here (.copied (.put value))
  have e := tally_moved settled here (.copied (.put value))
  have w := tally_moved storing here (.copied (.put value))
  have l := tally_kept loading here (.copied (.put value)) rfl
  have bounded := queued.units.bounded
  have mine := tally_pos reserved s.stage thread (by rw [here]; rfl)
  have room : s.put.length < s.got.length + s.fifo.size := by
    have wide := indexed.room
    omega
  simp only [pending, reserved, settled, storing, Bool.toNat_false, Bool.toNat_true] at p r e w
  simp only [copyElement, copyIn, if_pos indexed.copied]
  constructor
  · refine ⟨queued.units.full_nonneg, queued.units.empty_nonneg, ?_, ?_⟩ <;>
      simp only [moveTo_stage, moveTo_fifo, moveTo_put, moveTo_got, List.length_append,
        List.length_singleton] <;> omega
  · refine ⟨indexed.room, indexed.word, indexed.copied, ?_, indexed.single, ?_, ?_, ?_, ?_⟩
    · simp only [moveTo_stage, moveTo_fifo]
      omega
    · simp only [moveTo_stage, moveTo_fifo, moveTo_put, List.length_append, List.length_singleton]
      rw [tail, show tally storing (Function.update s.stage thread (.copied (.put value))) = 1 by omega,
        Nat.add_sub_cancel]
    · simpa only [moveTo_stage, moveTo_fifo, moveTo_got, l] using indexed.head
    · simp only [moveTo_stage, moveTo_put, List.length_append, List.length_singleton]
      omega
    · exact l.le.trans indexed.read
  · constructor
    · rw [moveTo_fifo, moveTo_put, moveTo_got, tail]
      exact stored_put value room queued.stored.slots
    · exact queued.stored.copies.trans (List.prefix_append _ _)

theorem queued_copy_get (queued : Queued n s) (buffer : Value)
    (here : s.stage thread = .locked .get) :
    Queued n (moveTo (copyElement s buffer .get) thread (.copied .get)) := by
  have indexed := queued.indexed
  have mutex := indexed.mutex
  have queue := queued.units.queue
  have space := queued.units.space
  obtain ⟨no_storing, no_loading, tail, head⟩ := indexed.exact_indices here
  have p := tally_moved pending here (.copied .get)
  have r := tally_moved reserved here (.copied .get)
  have e := tally_moved settled here (.copied .get)
  have w := tally_kept storing here (.copied .get) rfl
  have l := tally_moved loading here (.copied .get)
  have waiting := queued.units.nonempty
  have mine := tally_pos pending s.stage thread (by rw [here]; rfl)
  simp only [pending, reserved, settled, loading, Bool.toNat_false, Bool.toNat_true] at p r e l
  simp only [copyElement, copyOut, if_pos indexed.copied]
  constructor
  · refine ⟨queued.units.full_nonneg, queued.units.empty_nonneg, ?_, ?_⟩ <;>
      simp only [moveTo_stage, moveTo_fifo, moveTo_put, moveTo_got, List.length_append,
        List.length_singleton] <;> omega
  · refine ⟨indexed.room, indexed.word, indexed.copied, ?_, indexed.single, ?_, ?_, ?_, ?_⟩
    · simp only [moveTo_stage, moveTo_fifo]
      omega
    · simpa only [moveTo_stage, moveTo_fifo, moveTo_put, w] using indexed.tail
    · simp only [moveTo_stage, moveTo_fifo, moveTo_got, List.length_append, List.length_singleton]
      rw [head, show tally loading (Function.update s.stage thread (.copied .get)) = 1 by omega,
        Nat.add_sub_cancel]
    · exact w.le.trans indexed.written
    · simp only [moveTo_stage, moveTo_got, List.length_append, List.length_singleton]
      omega
  · constructor
    · intro k low high
      rw [moveTo_got, List.length_append] at low
      exact queued.stored.slots k (Nat.le_of_succ_le low) high
    · rw [moveTo_got, moveTo_put, head]
      exact copies_get queued.stored.copies (queued.stored.slots _ (le_refl _) (by omega))

theorem queued_step (action : Action Thread Value) (after : State Thread Value)
    (queued : Queued n s) (stepped : step s action = some after) : Queued n after := by
  cases action with
  | enter thread transfer =>
      cases here : s.stage thread <;>
        simp only [step, here, Option.map_eq_some_iff, reduceCtorEq] at stepped
      obtain ⟨fifo, taken, rfl⟩ := stepped
      exact queued_enter queued transfer here fifo taken
  | lock thread =>
      cases here : s.stage thread <;>
        simp only [step, here, Option.map_eq_some_iff, reduceCtorEq] at stepped
      obtain ⟨mutex, locked, rfl⟩ := stepped
      exact queued_lock queued _ here mutex locked
  | copy thread buffer =>
      cases here : s.stage thread <;>
        simp only [step, here, Option.some.injEq, reduceCtorEq] at stepped
      rename_i transfer
      subst stepped
      cases transfer with
      | put value => exact queued_copy_put queued value buffer here
      | get => exact queued_copy_get queued buffer here
  | advance thread =>
      cases here : s.stage thread <;>
        simp only [step, here, Option.map_eq_some_iff, reduceCtorEq] at stepped
      obtain ⟨fifo, advanced, rfl⟩ := stepped
      exact queued_advance queued _ here fifo advanced
  | unlock thread =>
      cases here : s.stage thread <;>
        simp only [step, here, Option.some.injEq, reduceCtorEq] at stepped
      subst stepped
      exact queued_unlock queued _ here
  | leave thread =>
      cases here : s.stage thread <;>
        simp only [step, here, Option.map_eq_some_iff, reduceCtorEq] at stepped
      obtain ⟨fifo, given, rfl⟩ := stepped
      exact queued_leave queued _ here fifo given

def Begun (n elementSize : Nat) (s : State Thread Value) : Prop :=
  ∃ heapPtr tree memory after fifo,
    fifoInit heapPtr tree memory n elementSize = some (after, some fifo) ∧ s = created fifo

omit [DecidableEq Thread] in
theorem begun_queued {elementSize : Nat} (copied : Copied elementSize)
    (fits : sizeofFifo + n * elementSize < 2 ^ 32) (begun : Begun n elementSize s) : Queued n s := by
  obtain ⟨heapPtr, tree, memory, after, fifo, made, rfl⟩ := begun
  obtain ⟨size, counted⟩ := fifoInit_counted copied fits made
  obtain ⟨small, rfl⟩ := fifoInit_some made
  have positive : 1 ≤ elementSize := by rcases copied with rfl | rfl | rfl | rfl <;> decide
  have elements := Nat.mul_le_mul_left n positive
  have wide : Heap.heapSize = 131072 := rfl
  have header : sizeofFifo = 40 := rfl
  change initByteCount n elementSize = _ at size
  apply created_queued counted
  · change n < initByteCount n elementSize
    omega
  · rfl
  · exact if_pos (by omega)
  · rfl

theorem run_queued {elementSize : Nat} (copied : Copied elementSize)
    (fits : sizeofFifo + n * elementSize < 2 ^ 32)
    (reached : Reaches step free (Begun n elementSize) s) : Queued n s :=
  reached.invariant (Queued n) (fun _ begun => begun_queued copied fits begun)
    (fun _ action after queued _ stepped => queued_step action after queued stepped)

end Steps
end Counts

/-- A FIFO whose byte count does not wrap hands every value over once, in order,
and keeps its two counts and the calls in flight at `n` together. -/
theorem fifo_linearized [Fintype Thread] [DecidableEq Thread] (n elementSize : Nat)
    (copied : Copied elementSize) (fits : sizeofFifo + n * elementSize < 2 ^ 32)
    (s : State Thread Value) (reached : Reaches step free (Begun n elementSize) s) :
    Linearized n s :=
  queued_linearized (run_queued copied fits reached)

def wholeCall (thread : Thread) (transfer : Transfer Value) (buffer : Value) :
    List (Action Thread Value) :=
  [.enter thread transfer, .lock thread, .copy thread buffer, .advance thread, .unlock thread,
    .leave thread]

/-- Two producers and a consumer: the second producer overtakes the first between its two
waits, the consumer waits for the mutex behind the first, and two calls are open at the end. -/
def overlapping : List (Action (Fin 3) Nat) :=
  [.enter 0 (.put 7), .enter 1 (.put 8), .lock 1, .copy 1 0, .advance 1, .unlock 1, .leave 1,
    .lock 0, .enter 2 .get, .copy 0 0, .advance 0, .unlock 0, .lock 2, .leave 0, .copy 2 0,
    .advance 2, .unlock 2, .leave 2, .enter 1 (.put 9), .enter 2 .get, .lock 2, .copy 2 0,
    .advance 2, .unlock 2, .lock 1, .copy 1 0]

theorem fifo_linearized_overlapping :
    ∃ s ∈ exec step (created (byteFifo 2)) overlapping,
      s.put = [8, 7, 9] ∧ s.got = [8, 7] ∧ s.stage 1 = .copied (.put 9) ∧ s.stage 2 = .unlocked .get ∧
        Linearized 2 s := by
  have begun : Begun 2 1 (created (byteFifo 2) : State (Fin 3) Nat) :=
    ⟨0x20000800, Heap.heapInit, fun _ => 0, _, byteFifo 2, rfl, rfl⟩
  exact ⟨_, rfl, rfl, rfl, rfl, rfl, fifo_linearized 2 1 (by decide) (by decide) _
    (exec_reaches overlapping (.start begun) (allowed_free _ _ _) rfl)⟩

/-- `fifo_init(2147483629, 2)`: the byte count wraps to 2. -/
def wrappedFifo : Fifo Nat := ⟨0, 2147483629, 0, 2, 2, 0, 0, fun _ => 0⟩

/-- The third put overwrites the first element before it is read. -/
theorem wrapped_fifo_overwrites :
    ∃ s, Reaches step free (Begun 2147483629 2) s ∧
      ¬ Linearized 2147483629 (s : State (Fin 2) Nat) := by
  have begun : Begun 2147483629 2 (created wrappedFifo : State (Fin 2) Nat) :=
    ⟨0x20000800, Heap.heapInit, fun _ => 0, _, wrappedFifo, rfl, rfl⟩
  obtain ⟨s, executed, got, put⟩ : ∃ s ∈ exec step (created wrappedFifo)
      (wholeCall (0 : Fin 2) (.put 1) 0 ++ wholeCall 0 (.put 2) 0 ++ wholeCall 0 (.put 3) 0 ++
        wholeCall 1 .get 0), s.got = [3] ∧ s.put = [1, 2, 3] :=
    ⟨_, rfl, rfl, rfl⟩
  refine ⟨s, exec_reaches _ (.start begun) (allowed_free _ _ _) executed, ?_⟩
  intro linearized
  have order := linearized.order
  rw [got, put] at order
  exact absurd order (by decide)

end MulticoreRtos.MpmcFifo
