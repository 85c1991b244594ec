import Mathlib.Data.Fintype.Option
import MulticoreRtos.MpmcFifoThreads

/-!
The receive interrupt of `hw/uart.c`. `uart_rx_interrupt` puts every byte of the
hardware FIFO into `rx_fifo` with the blocking `fifo_put`. The thread it
interrupts stays where it is until the handler returns; threads that the other
core runs go on meanwhile.
-/

namespace MulticoreRtos.UartReceive

open MpmcFifo Population Transition

variable {Thread Value : Type}

/-- `rx_fifo` with the handler as `none` and a thread as `some thread`. -/
abbrev Rx (Thread Value : Type) := State (Option Thread) Value

def actor : Action (Option Thread) Value → Option Thread
  | .enter who _ => who
  | .lock who => who
  | .copy who _ => who
  | .advance who => who
  | .unlock who => who
  | .leave who => who

def Roles (_ : Rx Thread Value) : Action (Option Thread) Value → Prop
  | .enter (some _) (.put _) => False
  | .enter none .get => False
  | _ => True

instance (s : Rx Thread Value) (action : Action (Option Thread) Value) :
    Decidable (Roles s action) :=
  match action with
  | .enter (some _) (.put _) => inferInstanceAs (Decidable False)
  | .enter none .get => inferInstanceAs (Decidable False)
  | .enter (some _) .get => inferInstanceAs (Decidable True)
  | .enter none (.put _) => inferInstanceAs (Decidable True)
  | .lock _ => inferInstanceAs (Decidable True)
  | .copy _ _ => inferInstanceAs (Decidable True)
  | .advance _ => inferInstanceAs (Decidable True)
  | .unlock _ => inferInstanceAs (Decidable True)
  | .leave _ => inferInstanceAs (Decidable True)

/-- `bytes` is what the hardware FIFO still holds. -/
structure Handler (Thread Value : Type) where
  rx : Rx Thread Value
  bytes : List Value

def nextAction (h : Handler Thread Value) :
    Option (Action (Option Thread) Value × List Value) :=
  match h.rx.stage none with
  | .outside =>
      match h.bytes with
      | [] => none
      | byte :: rest => some (.enter none (.put byte), rest)
  | .counted _ => some (.lock none, h.bytes)
  | .locked (.put byte) => some (.copy none byte, h.bytes)
  | .locked .get => none
  | .copied _ => some (.advance none, h.bytes)
  | .advanced _ => some (.unlock none, h.bytes)
  | .unlocked _ => some (.leave none, h.bytes)

inductive Move (Thread Value : Type) where
  | own
  | other (action : Action (Option Thread) Value)

def Meanwhile (others : Thread → Prop) (h : Handler Thread Value) : Move Thread Value → Prop
  | .own => True
  | .other action => Roles h.rx action ∧ ∃ thread, actor action = some thread ∧ others thread

def Finished (h : Handler Thread Value) : Prop := h.rx.stage none = .outside ∧ h.bytes = []

/-- The handler stands at a wait that does not succeed at once. -/
def CallsSchedBlock (h : Handler Thread Value) : Prop :=
  (h.rx.stage none = .outside ∧ h.bytes ≠ [] ∧ h.rx.fifo.full = 0) ∨
    (∃ byte, h.rx.stage none = .counted (.put byte)) ∧ h.rx.fifo.mutex ≠ 0

def left (h : Handler Thread Value) : Nat :=
  6 * h.bytes.length + match h.rx.stage none with
    | .outside => 0
    | .counted _ => 5
    | .locked _ => 4
    | .copied _ => 3
    | .advanced _ => 2
    | .unlocked _ => 1

section Runs
variable [DecidableEq Thread]

def handlerStep (h : Handler Thread Value) : Move Thread Value → Option (Handler Thread Value)
  | .own => do
      let (action, rest) ← nextAction h
      let rx ← step h.rx action
      some ⟨rx, rest⟩
  | .other action => (step h.rx action).map fun rx => ⟨rx, h.bytes⟩

/-- However the other core runs meanwhile, the handler goes through to its end. -/
def NeverBlocks (others : Thread → Prop) (s : Rx Thread Value) (bytes : List Value) : Prop :=
  ∀ h, Reaches handlerStep (Meanwhile others) (· = ⟨s, bytes⟩) h →
    ¬ CallsSchedBlock h ∧ (Finished h ∨ ∃ after, handlerStep h .own = some after)

end Runs

/-! Where the handler and the threads can be. -/

def transferOf : Stage Value → Option (Transfer Value)
  | .outside => none
  | .counted transfer => some transfer
  | .locked transfer => some transfer
  | .copied transfer => some transfer
  | .advanced transfer => some transfer
  | .unlocked transfer => some transfer

structure Placed (s : Rx Thread Value) : Prop where
  handler : ∀ transfer, transferOf (s.stage none) = some transfer → ∃ byte, transfer = .put byte
  threads : ∀ thread transfer, transferOf (s.stage (some thread)) = some transfer → transfer = .get

section Steps
variable [DecidableEq Thread] {s after : Rx Thread Value}

theorem step_stage (action : Action (Option Thread) Value) (stepped : step s action = some after) :
    ∃ stage, after.stage = Function.update s.stage (actor action) stage ∧
      (transferOf stage = none ∨ transferOf stage = transferOf (s.stage (actor action)) ∨
        ∃ transfer, action = .enter (actor action) transfer ∧ transferOf stage = some transfer) := by
  cases action with
  | enter who transfer =>
      cases here : s.stage who <;>
        simp only [step, here, Option.map_eq_some_iff, reduceCtorEq] at stepped
      obtain ⟨fifo, _, rfl⟩ := stepped
      exact ⟨_, rfl, Or.inr (Or.inr ⟨transfer, rfl, rfl⟩)⟩
  | lock who =>
      cases here : s.stage who <;>
        simp only [step, here, Option.map_eq_some_iff, reduceCtorEq] at stepped
      obtain ⟨mutex, _, rfl⟩ := stepped
      exact ⟨_, rfl, Or.inr (Or.inl (by simp only [actor, here, transferOf]))⟩
  | copy who buffer =>
      cases here : s.stage who <;>
        simp only [step, here, Option.some.injEq, reduceCtorEq] at stepped
      rename_i transfer
      subst stepped
      refine ⟨.copied transfer, ?_, Or.inr (Or.inl (by simp only [actor, here, transferOf]))⟩
      cases transfer <;> rfl
  | advance who =>
      cases here : s.stage who <;>
        simp only [step, here, Option.map_eq_some_iff, reduceCtorEq] at stepped
      obtain ⟨fifo, _, rfl⟩ := stepped
      exact ⟨_, rfl, Or.inr (Or.inl (by simp only [actor, here, transferOf]))⟩
  | unlock who =>
      cases here : s.stage who <;>
        simp only [step, here, Option.some.injEq, reduceCtorEq] at stepped
      subst stepped
      exact ⟨_, rfl, Or.inr (Or.inl (by simp only [actor, here, transferOf]))⟩
  | leave who =>
      cases here : s.stage who <;>
        simp only [step, here, Option.map_eq_some_iff, reduceCtorEq] at stepped
      obtain ⟨fifo, _, rfl⟩ := stepped
      exact ⟨_, rfl, Or.inl rfl⟩

theorem placed_step (placed : Placed s) (action : Action (Option Thread) Value)
    (roles : Roles s action) (stepped : step s action = some after) : Placed after := by
  obtain ⟨stage, moved, cause⟩ := step_stage action stepped
  have entered : ∀ transfer, action = .enter (actor action) transfer →
      match actor action with
      | none => ∃ byte, transfer = .put byte
      | some _ => transfer = .get := by
    intro transfer same
    rw [same] at roles
    cases who : actor action <;> cases transfer <;> simp [who, Roles] at roles ⊢
  constructor
  · intro transfer inside
    rw [moved] at inside
    cases who : actor action with
    | none =>
        rw [who, Function.update_self] at inside
        rcases cause with gone | kept | ⟨begun, same, started⟩
        · rw [gone] at inside
          cases inside
        · rw [kept, who] at inside
          exact placed.handler transfer inside
        · have role := entered begun same
          rw [who] at role
          rw [started] at inside
          cases inside
          exact role
    | some thread =>
        rw [who, Function.update_of_ne (by simp)] at inside
        exact placed.handler transfer inside
  · intro thread transfer inside
    rw [moved] at inside
    by_cases mine : actor action = some thread
    · rw [mine, Function.update_self] at inside
      rcases cause with gone | kept | ⟨begun, same, started⟩
      · rw [gone] at inside
        cases inside
      · rw [kept, mine] at inside
        exact placed.threads thread transfer inside
      · have role := entered begun same
        rw [mine] at role
        rw [started] at inside
        cases inside
        exact role
    · rw [Function.update_of_ne (Ne.symm mine)] at inside
      exact placed.threads thread transfer inside

end Steps

/-! The statements of the handler, one by one. -/
section Own
variable [DecidableEq Thread]

inductive Own : Handler Thread Value → Handler Thread Value → Prop where
  | enter {rx : Rx Thread Value} {byte : Value} {rest : List Value}
      (here : rx.stage none = .outside) (room : 0 < rx.fifo.full) :
      Own ⟨rx, byte :: rest⟩
        ⟨moveTo { rx with fifo := { rx.fifo with full := rx.fifo.full - 1 } } none
          (.counted (.put byte)), rest⟩
  | lock {rx : Rx Thread Value} {byte : Value} {bytes : List Value}
      (here : rx.stage none = .counted (.put byte)) (unlocked : rx.fifo.mutex = 0) :
      Own ⟨rx, bytes⟩
        ⟨moveTo { rx with fifo := { rx.fifo with mutex := 1 } } none (.locked (.put byte)), bytes⟩
  | copy {rx : Rx Thread Value} {byte : Value} {bytes : List Value}
      (here : rx.stage none = .locked (.put byte)) :
      Own ⟨rx, bytes⟩
        ⟨moveTo { rx with fifo := copyIn rx.fifo byte, put := rx.put ++ [byte] } none
          (.copied (.put byte)), bytes⟩
  | advance {rx : Rx Thread Value} {byte : Value} {bytes : List Value}
      (here : rx.stage none = .copied (.put byte)) (positive : 0 < rx.fifo.size) :
      Own ⟨rx, bytes⟩
        ⟨moveTo { rx with fifo := { rx.fifo with
          tail := (rx.fifo.tail + 1) % 2 ^ 32 % rx.fifo.size } } none (.advanced (.put byte)),
          bytes⟩
  | unlock {rx : Rx Thread Value} {byte : Value} {bytes : List Value}
      (here : rx.stage none = .advanced (.put byte)) :
      Own ⟨rx, bytes⟩
        ⟨moveTo { rx with fifo := { rx.fifo with mutex := 0 } } none (.unlocked (.put byte)),
          bytes⟩
  | leave {rx : Rx Thread Value} {byte : Value} {bytes : List Value}
      (here : rx.stage none = .unlocked (.put byte)) (small : rx.fifo.empty < int32Max) :
      Own ⟨rx, bytes⟩
        ⟨moveTo { rx with fifo := { rx.fifo with empty := rx.fifo.empty + 1 } } none .outside,
          bytes⟩

theorem Own.step {h after : Handler Thread Value} (own : Own h after) :
    handlerStep h .own = some after := by
  cases own with
  | @enter rx byte rest here room =>
      have some_left : ¬ (rx.fifo.full = 0 ∨ rx.fifo.full = int32Min) := by
        unfold int32Min
        omega
      simp [handlerStep, nextAction, here, MpmcFifo.step, takeUnit, cWait, some_left]
  | lock here unlocked => simp [handlerStep, nextAction, here, MpmcFifo.step, bWait, unlocked]
  | copy here => simp [handlerStep, nextAction, here, MpmcFifo.step, copyElement]
  | advance here positive =>
      have some_size := Nat.ne_of_gt positive
      simp [handlerStep, nextAction, here, MpmcFifo.step, advanceIndex, advanceTail,
        MpmcFifo.advance, some_size]
  | unlock here => simp [handlerStep, nextAction, here, MpmcFifo.step, bSignal]
  | leave here small =>
      simp [handlerStep, nextAction, here, MpmcFifo.step, giveUnit, cSignal, Int.ne_of_lt small]

theorem Own.left {h after : Handler Thread Value} (own : Own h after) :
    left after + 1 = left h := by
  cases own with
  | enter here room =>
      simp [UartReceive.left, here]
      omega
  | lock here _ | copy here | advance here _ | unlock here | leave here _ =>
      simp [UartReceive.left, here]

theorem blocked_stays {h : Handler Thread Value} (blocked : CallsSchedBlock h) :
    handlerStep h .own = none := by
  rcases blocked with ⟨here, some_bytes, full⟩ | ⟨⟨byte, here⟩, locked⟩
  · obtain ⟨byte, rest, bytes⟩ := List.exists_cons_of_ne_nil some_bytes
    simp [handlerStep, nextAction, here, bytes, step, takeUnit, cWait, full]
  · simp [handlerStep, nextAction, here, step, bWait, locked]

theorem finished_stays {h : Handler Thread Value} (finished : Finished h) :
    handlerStep h .own = none := by
  simp [handlerStep, nextAction, finished.1, finished.2]

end Own

theorem nextAction_roles (h : Handler Thread Value) (action : Action (Option Thread) Value)
    (rest : List Value) (next : nextAction h = some (action, rest)) : Roles h.rx action := by
  cases here : h.rx.stage none with
  | outside =>
      cases bytes : h.bytes <;> simp [nextAction, here, bytes] at next
      obtain ⟨rfl, _⟩ := next
      trivial
  | locked transfer =>
      cases transfer <;> simp [nextAction, here] at next
      obtain ⟨rfl, _⟩ := next
      trivial
  | _ =>
      simp [nextAction, here] at next
      obtain ⟨rfl, _⟩ := next
      trivial

theorem move_step [DecidableEq Thread] {h : Handler Thread Value} (move : Move Thread Value)
    (others : Thread → Prop) (allowed : Meanwhile others h move) (after : Handler Thread Value)
    (stepped : handlerStep h move = some after) :
    ∃ action, Roles h.rx action ∧ step h.rx action = some after.rx := by
  cases move with
  | own =>
      simp only [handlerStep, Option.bind_eq_bind, Option.bind_eq_some_iff, Option.some.injEq] at stepped
      obtain ⟨⟨action, rest⟩, next, rx, moved, rfl⟩ := stepped
      exact ⟨action, nextAction_roles h action rest next, moved⟩
  | other action =>
      simp only [handlerStep, Option.map_eq_some_iff] at stepped
      obtain ⟨rx, moved, rfl⟩ := stepped
      exact ⟨action, allowed.1, moved⟩

/-- Nobody but the handler runs, and there is room for all its bytes. -/
def SafeAlone (h : Handler Thread Value) : Prop :=
  match h.rx.stage none with
  | .outside => h.bytes = [] ∨ (h.rx.fifo.mutex = 0 ∧ (h.bytes.length : Int) ≤ h.rx.fifo.full)
  | .counted _ => h.rx.fifo.mutex = 0 ∧ (h.bytes.length : Int) ≤ h.rx.fifo.full
  | .unlocked _ => h.rx.fifo.mutex = 0 ∧ (h.bytes.length : Int) ≤ h.rx.fifo.full
  | _ => (h.bytes.length : Int) ≤ h.rx.fifo.full

theorem SafeAlone.clear {h : Handler Thread Value} (safe : SafeAlone h) : ¬ CallsSchedBlock h := by
  rintro (⟨here, some_bytes, full⟩ | ⟨⟨byte, here⟩, locked⟩)
  · simp only [SafeAlone, here] at safe
    have positive := List.length_pos_of_ne_nil some_bytes
    rcases safe with none_left | ⟨_, room⟩
    · exact some_bytes none_left
    · omega
  · simp only [SafeAlone, here] at safe
    exact locked safe.1

/-- The mutex is free, there is nothing to read and no thread has a unit to read. -/
structure Calm (others : Thread → Prop) (rx : Rx Thread Value) : Prop where
  unlocked : rx.fifo.mutex = 0
  nothing : rx.fifo.empty = 0
  waiting : ∀ thread, others thread → rx.stage (some thread) ≠ .counted .get

/-- The last byte, and no thread that runs meanwhile can take the mutex first. -/
def SafeCalm (others : Thread → Prop) (h : Handler Thread Value) : Prop :=
  match h.rx.stage none with
  | .outside => h.bytes = [] ∨ (h.bytes.length = 1 ∧ 0 < h.rx.fifo.full ∧ Calm others h.rx)
  | .counted _ => h.bytes = [] ∧ Calm others h.rx
  | _ => h.bytes = []

theorem SafeCalm.clear {others : Thread → Prop} {h : Handler Thread Value}
    (safe : SafeCalm others h) : ¬ CallsSchedBlock h := by
  rintro (⟨here, some_bytes, full⟩ | ⟨⟨byte, here⟩, locked⟩)
  · simp only [SafeCalm, here] at safe
    rcases safe with none_left | ⟨_, room, _⟩
    · exact some_bytes none_left
    · omega
  · simp only [SafeCalm, here] at safe
    exact locked safe.2.unlocked

/-! A copy changes neither the semaphores nor the size. -/

@[simp] theorem copyIn_full (fifo : Fifo Value) (value : Value) :
    (copyIn fifo value).full = fifo.full := by
  unfold copyIn
  split <;> rfl

@[simp] theorem copyIn_empty (fifo : Fifo Value) (value : Value) :
    (copyIn fifo value).empty = fifo.empty := by
  unfold copyIn
  split <;> rfl

@[simp] theorem copyIn_size (fifo : Fifo Value) (value : Value) :
    (copyIn fifo value).size = fifo.size := by
  unfold copyIn
  split <;> rfl

section Counts
variable [DecidableEq Thread] [Fintype Thread] {n : Nat} {h : Handler Thread Value}

omit [DecidableEq Thread] in
theorem few_elements {rx : Rx Thread Value} (queued : Queued n rx) (small : n < 2 ^ 31 - 1) :
    rx.fifo.empty < int32Max := by
  have queue := queued.units.queue
  have bounded := queued.units.bounded
  unfold int32Max
  omega

theorem own_next (queued : Queued n h.rx) (small : n < 2 ^ 31 - 1) (placed : Placed h.rx)
    (clear : ¬ CallsSchedBlock h) : Finished h ∨ ∃ after, Own h after := by
  obtain ⟨rx, bytes⟩ := h
  have full := queued.units.full_nonneg
  have puts := placed.handler
  unfold CallsSchedBlock at clear
  cases here : rx.stage none with
  | outside =>
      cases bytes with
      | nil => exact Or.inl ⟨here, rfl⟩
      | cons byte rest =>
          have room : rx.fifo.full ≠ 0 := fun zero => clear (Or.inl ⟨here, by simp, zero⟩)
          exact Or.inr ⟨_, .enter here (lt_of_le_of_ne full room.symm)⟩
  | counted transfer =>
      obtain ⟨byte, rfl⟩ := puts transfer (by simp [here, transferOf])
      have unlocked : rx.fifo.mutex = 0 := by
        by_contra locked
        exact clear (Or.inr ⟨⟨byte, here⟩, locked⟩)
      exact Or.inr ⟨_, .lock here unlocked⟩
  | locked transfer =>
      obtain ⟨byte, rfl⟩ := puts transfer (by simp [here, transferOf])
      exact Or.inr ⟨_, .copy here⟩
  | copied transfer =>
      obtain ⟨byte, rfl⟩ := puts transfer (by simp [here, transferOf])
      exact Or.inr ⟨_, .advance here (Nat.zero_lt_of_lt queued.indexed.room)⟩
  | advanced transfer =>
      obtain ⟨byte, rfl⟩ := puts transfer (by simp [here, transferOf])
      exact Or.inr ⟨_, .unlock here⟩
  | unlocked transfer =>
      obtain ⟨byte, rfl⟩ := puts transfer (by simp [here, transferOf])
      exact Or.inr ⟨_, .leave here (few_elements queued small)⟩

theorem own_possible (queued : Queued n h.rx) (small : n < 2 ^ 31 - 1) (placed : Placed h.rx)
    (clear : ¬ CallsSchedBlock h) : Finished h ∨ ∃ after, handlerStep h .own = some after :=
  (own_next queued small placed clear).imp_right fun ⟨after, own⟩ => ⟨after, own.step⟩

structure Sound (n : Nat) (h : Handler Thread Value) : Prop where
  queued : Queued n h.rx
  placed : Placed h.rx

theorem sound_step {others : Thread → Prop} (sound : Sound n h) (move : Move Thread Value)
    (allowed : Meanwhile others h move) (after : Handler Thread Value)
    (stepped : handlerStep h move = some after) : Sound n after := by
  obtain ⟨action, roles, moved⟩ := move_step move others allowed after stepped
  exact ⟨queued_step action after.rx sound.queued moved, placed_step sound.placed action roles moved⟩

theorem own_cases (sound : Sound n h) (small : n < 2 ^ 31 - 1) {after : Handler Thread Value}
    (stepped : handlerStep h .own = some after) : Own h after := by
  have clear : ¬ CallsSchedBlock h := by
    intro blocked
    exact nomatch stepped.symm.trans (blocked_stays blocked)
  rcases own_next sound.queued small sound.placed clear with finished | ⟨next, own⟩
  · exact nomatch stepped.symm.trans (finished_stays finished)
  · obtain rfl := Option.some.inj (own.step.symm.trans stepped)
    exact own

theorem safeAlone_own (sound : Sound n h) (small : n < 2 ^ 31 - 1) (safe : SafeAlone h)
    (after : Handler Thread Value) (stepped : handlerStep h .own = some after) :
    SafeAlone after := by
  cases own_cases sound small stepped with
  | enter here _ =>
      simp only [SafeAlone, here] at safe
      obtain ⟨unlocked, room⟩ := safe.resolve_left (by simp)
      rw [List.length_cons] at room
      simp only [SafeAlone, moveTo_stage, Function.update_self, moveTo_fifo]
      exact ⟨unlocked, by omega⟩
  | lock here _ =>
      simp only [SafeAlone, here] at safe
      simp only [SafeAlone, moveTo_stage, Function.update_self, moveTo_fifo]
      exact safe.2
  | copy here =>
      simp only [SafeAlone, here] at safe
      simp only [SafeAlone, moveTo_stage, Function.update_self, moveTo_fifo, copyIn_full]
      exact safe
  | advance here _ =>
      simp only [SafeAlone, here] at safe
      simp only [SafeAlone, moveTo_stage, Function.update_self, moveTo_fifo]
      exact safe
  | unlock here =>
      simp only [SafeAlone, here] at safe
      simp only [SafeAlone, moveTo_stage, Function.update_self, moveTo_fifo, true_and]
      exact safe
  | leave here _ =>
      simp only [SafeAlone, here] at safe
      simp only [SafeAlone, moveTo_stage, Function.update_self, moveTo_fifo]
      exact Or.inr safe

theorem safeCalm_own {others : Thread → Prop} (sound : Sound n h) (small : n < 2 ^ 31 - 1)
    (safe : SafeCalm others h) (after : Handler Thread Value)
    (stepped : handlerStep h .own = some after) : SafeCalm others after := by
  cases own_cases sound small stepped with
  | @enter _ _ rest here _ =>
      simp only [SafeCalm, here] at safe
      obtain ⟨last, _, calm⟩ := safe.resolve_left (by simp)
      have no_more : rest = [] := by simpa using last
      simp only [SafeCalm, moveTo_stage, Function.update_self]
      exact ⟨no_more, calm.unlocked, calm.nothing, calm.waiting⟩
  | lock here _ =>
      simp only [SafeCalm, here] at safe
      simp only [SafeCalm, moveTo_stage, Function.update_self]
      exact safe.1
  | copy here | advance here _ | unlock here =>
      simp only [SafeCalm, here] at safe
      simpa only [SafeCalm, moveTo_stage, Function.update_self] using safe
  | leave here _ =>
      simp only [SafeCalm, here] at safe
      simp only [SafeCalm, moveTo_stage, Function.update_self]
      exact Or.inl safe

omit [DecidableEq Thread] in
theorem outside_section {rx : Rx Thread Value} (queued : Queued n rx)
    (unlocked : rx.fifo.mutex = 0) (who : Option Thread) :
    settled (rx.stage who) = false ∧ loading (rx.stage who) = false := by
  have free_mutex := queued.indexed.mutex
  rw [unlocked] at free_mutex
  constructor
  · by_contra inside
    have counted := tally_pos settled rx.stage who (by simpa using inside)
    omega
  · by_contra inside
    have counted := tally_pos loading rx.stage who (by simpa using inside)
    omega

/-- In a calm state a thread that runs meanwhile can only finish its last get. -/
theorem calm_thread {others : Thread → Prop} {rx after : Rx Thread Value} (queued : Queued n rx)
    (placed : Placed rx) (calm : Calm others rx) (action : Action (Option Thread) Value)
    (roles : Roles rx action) (thread : Thread) (mine : actor action = some thread)
    (running : others thread) (stepped : step rx action = some after) :
    Calm others after ∧ rx.fifo.full ≤ after.fifo.full ∧ after.stage none = rx.stage none := by
  have not_inside := outside_section queued calm.unlocked (some thread)
  have gets := placed.threads thread
  have nothing := calm.nothing
  -- the lock is free and no byte waits: the thread can only leave its section
  cases action with
  | enter who transfer =>
      obtain rfl : who = some thread := mine
      cases transfer with
      | put byte => exact absurd roles id
      | get =>
          cases here : rx.stage (some thread) <;>
            simp [step, here, takeUnit, cWait, nothing] at stepped
  | lock who =>
      obtain rfl : who = some thread := mine
      cases here : rx.stage (some thread) with
      | counted transfer =>
          obtain rfl := gets transfer (by simp [here, transferOf])
          exact absurd here (calm.waiting thread running)
      | _ => simp [step, here] at stepped
  | copy who buffer =>
      obtain rfl : who = some thread := mine
      cases here : rx.stage (some thread) with
      | locked transfer => simp [here, settled] at not_inside
      | _ => simp [step, here] at stepped
  | advance who =>
      obtain rfl : who = some thread := mine
      cases here : rx.stage (some thread) with
      | copied transfer =>
          obtain rfl := gets transfer (by simp [here, transferOf])
          simp [here, loading] at not_inside
      | _ => simp [step, here] at stepped
  | unlock who =>
      obtain rfl : who = some thread := mine
      cases here : rx.stage (some thread) with
      | advanced transfer => simp [here, settled] at not_inside
      | _ => simp [step, here] at stepped
  | leave who =>
      obtain rfl : who = some thread := mine
      cases here : rx.stage (some thread) with
      | unlocked transfer =>
          obtain rfl := gets transfer (by simp [here, transferOf])
          simp only [step, here, giveUnit, cSignal, Option.map_map, Option.map_eq_some_iff,
            Option.ite_none_left_eq_some, Option.some.injEq, Function.comp_apply] at stepped
          obtain ⟨_, ⟨_, rfl⟩, rfl⟩ := stepped
          refine ⟨⟨calm.unlocked, nothing, fun other others_run => ?_⟩, ?_, ?_⟩
          · by_cases same : other = thread
            · subst same
              simp
            · rw [moveTo_stage, Function.update_of_ne (by simpa using same)]
              exact calm.waiting other others_run
          · simp only [moveTo_fifo]
            omega
          · rw [moveTo_stage, Function.update_of_ne (by simp)]
      | _ => simp [step, here] at stepped

theorem safeCalm_step {others : Thread → Prop} (sound : Sound n h) (small : n < 2 ^ 31 - 1)
    (safe : SafeCalm others h) (move : Move Thread Value) (allowed : Meanwhile others h move)
    (after : Handler Thread Value) (stepped : handlerStep h move = some after) :
    SafeCalm others after := by
  cases move with
  | own => exact safeCalm_own sound small safe after stepped
  | other action =>
      simp only [handlerStep, Option.map_eq_some_iff] at stepped
      obtain ⟨rx, moved, rfl⟩ := stepped
      obtain ⟨roles, thread, mine, running⟩ := allowed
      obtain ⟨stage, turned, _⟩ := step_stage action moved
      have kept : rx.stage none = h.rx.stage none := by
        rw [turned, mine, Function.update_of_ne (by simp)]
      unfold SafeCalm at safe ⊢
      rw [kept]
      cases here : h.rx.stage none <;> simp only [here] at safe ⊢
      · refine safe.imp id fun ⟨last, room, calm⟩ => ⟨last, ?_⟩
        obtain ⟨still, more, _⟩ := calm_thread sound.queued sound.placed calm action roles thread mine
          running moved
        exact ⟨by omega, still⟩
      · obtain ⟨still, _⟩ := calm_thread sound.queued sound.placed safe.2 action roles thread mine
          running moved
        exact ⟨safe.1, still⟩
      all_goals exact safe

/-! Ways to a wait that blocks. -/

variable {others : Thread → Prop} {start : Handler Thread Value} {rx : Rx Thread Value}
  {bytes : List Value} {byte : Value}

theorem run_sound (sound : Sound n start)
    (reached : Reaches handlerStep (Meanwhile others) (· = start) h) : Sound n h :=
  reached.invariant (Sound n) (by rintro _ rfl; exact sound)
    fun _ move after sound allowed stepped => sound_step sound move allowed after stepped

omit [Fintype Thread] in
theorem reaches_own {after : Handler Thread Value}
    (reached : Reaches handlerStep (Meanwhile others) (· = start) h)
    (own : Own h after) : Reaches handlerStep (Meanwhile others) (· = start) after :=
  .next .own reached trivial own.step

omit [Fintype Thread] in
theorem moved_here (rx : Rx Thread Value) (who : Option Thread) (stage : Stage Value) :
    (moveTo rx who stage).stage who = stage := Function.update_self _ _ _

theorem own_put (queued : Queued n rx) (small : n < 2 ^ 31 - 1)
    (reached : Reaches handlerStep (Meanwhile others) (· = start) ⟨rx, byte :: bytes⟩)
    (here : rx.stage none = .outside) (unlocked : rx.fifo.mutex = 0) (room : 0 < rx.fifo.full) :
    ∃ after : Rx Thread Value,
      Reaches handlerStep (Meanwhile others) (· = start) ⟨after, bytes⟩ ∧
      after.stage none = .outside ∧ after.fifo.mutex = 0 ∧ after.fifo.full = rx.fifo.full - 1 ∧
      after.fifo.empty = rx.fifo.empty + 1 := by
  have positive : 0 < rx.fifo.size := Nat.zero_lt_of_lt queued.indexed.room
  have few := few_elements queued small
  have entered := reaches_own reached (.enter here room)
  have locked := reaches_own entered (.lock (moved_here _ _ _) unlocked)
  have stored := reaches_own locked (.copy (moved_here _ _ _))
  have moved := reaches_own stored (.advance (moved_here _ _ _) (by
    simpa only [moveTo_fifo, copyIn_size] using positive))
  have freed := reaches_own moved (.unlock (moved_here _ _ _))
  have left_call := reaches_own freed (.leave (moved_here _ _ _) (by
    simpa only [moveTo_fifo, copyIn_empty] using few))
  refine ⟨_, left_call, moved_here _ _ _, ?_, ?_, ?_⟩ <;>
    simp only [moveTo_fifo, copyIn_full, copyIn_empty]

omit [DecidableEq Thread] in
theorem few_slots {rx : Rx Thread Value} (queued : Queued n rx) (small : n < 2 ^ 31 - 1) :
    rx.fifo.full < int32Max := by
  have space := queued.units.space
  have read := queued.units.nonempty
  unfold int32Max
  omega

def Blocks (others : Thread → Prop) (start : Handler Thread Value) : Prop :=
  ∃ h, Reaches handlerStep (Meanwhile others) (· = start) h ∧ CallsSchedBlock h

theorem blocks_locked (sound : Sound n start)
    (reached : Reaches handlerStep (Meanwhile others) (· = start) ⟨rx, byte :: bytes⟩)
    (here : rx.stage none = .outside) (locked : rx.fifo.mutex ≠ 0) : Blocks others start := by
  have full := (run_sound sound reached).queued.units.full_nonneg
  by_cases room : rx.fifo.full = 0
  · exact ⟨_, reached, Or.inl ⟨here, by simp, room⟩⟩
  · have entered := reaches_own reached (.enter here (lt_of_le_of_ne full (Ne.symm room)))
    exact ⟨_, entered, Or.inr ⟨⟨byte, moved_here _ _ _⟩, locked⟩⟩

/-- Too many bytes: the handler runs until `full` is 0. -/
theorem blocks_full (sound : Sound n start) (small : n < 2 ^ 31 - 1) (bytes : List Value) :
    ∀ rx : Rx Thread Value, Reaches handlerStep (Meanwhile others) (· = start) ⟨rx, bytes⟩ →
      rx.stage none = .outside → rx.fifo.mutex = 0 → rx.fifo.full < bytes.length →
      Blocks others start := by
  -- each byte lowers both `full` and the number of bytes left by one
  induction bytes with
  | nil =>
      intro rx reached _ _ many
      have full := (run_sound sound reached).queued.units.full_nonneg
      simp only [List.length_nil, Nat.cast_zero] at many
      exact absurd many (Int.not_lt.mpr full)
  | cons byte rest ih =>
      intro rx reached here unlocked many
      have queued : Queued n rx := (run_sound sound reached).queued
      have full := queued.units.full_nonneg
      by_cases room : rx.fifo.full = 0
      · exact ⟨_, reached, Or.inl ⟨here, by simp, room⟩⟩
      · obtain ⟨after, put, outside, unlocked_after, full_after, _⟩ := own_put queued small reached here
          unlocked (lt_of_le_of_ne full (Ne.symm room))
        apply ih after put outside unlocked_after
        rw [List.length_cons, Nat.cast_add, Nat.cast_one] at many
        omega

omit [Fintype Thread] in
theorem reaches_thread {after : Rx Thread Value} (action : Action (Option Thread) Value)
    (reached : Reaches handlerStep (Meanwhile others) (· = start) ⟨rx, bytes⟩)
    (roles : Roles rx action) {thread : Thread} (mine : actor action = some thread)
    (running : others thread) (stepped : step rx action = some after) :
    Reaches handlerStep (Meanwhile others) (· = start) ⟨after, bytes⟩ := by
  have moved : handlerStep ⟨rx, bytes⟩ (.other action) = some ⟨after, bytes⟩ := by
    rw [handlerStep, stepped, Option.map_some]
  exact .next (.other action) reached ⟨roles, thread, mine, running⟩ moved

omit [Fintype Thread] in
theorem thread_locks {stage : Stage Value} {thread : Thread}
    (reached : Reaches handlerStep (Meanwhile others) (· = start) ⟨rx, bytes⟩)
    (here : rx.stage none = stage) (counted : rx.stage (some thread) = .counted .get)
    (unlocked : rx.fifo.mutex = 0) (running : others thread) :
    ∃ after : Rx Thread Value, Reaches handlerStep (Meanwhile others) (· = start) ⟨after, bytes⟩ ∧
      after.stage none = stage ∧ after.fifo.mutex = 1 := by
  have locks : step rx (.lock (some thread)) =
      some (moveTo { rx with fifo := { rx.fifo with mutex := 1 } } (some thread) (.locked .get)) := by
    simp [step, counted, bWait, unlocked]
  exact ⟨_, reaches_thread (.lock (some thread)) reached trivial rfl running locks, by simpa using here, rfl⟩

theorem blocks_caught (sound : Sound n start)
    (reached : Reaches handlerStep (Meanwhile others) (· = start) ⟨rx, byte :: bytes⟩)
    (here : rx.stage none = .outside) (unlocked : rx.fifo.mutex = 0) (thread : Thread)
    (running : others thread) (counted : rx.stage (some thread) = .counted .get) :
    Blocks others start := by
  have full := (run_sound sound reached).queued.units.full_nonneg
  by_cases room : rx.fifo.full = 0
  · exact ⟨_, reached, Or.inl ⟨here, by simp, room⟩⟩
  · have entered := reaches_own reached (.enter here (lt_of_le_of_ne full (Ne.symm room)))
    obtain ⟨after, locks, waits, locked⟩ := thread_locks entered (moved_here _ _ _)
      (by simpa using counted) unlocked running
    exact ⟨_, locks, Or.inr ⟨⟨byte, waits⟩, by simp [locked]⟩⟩

theorem blocks_reader (sound : Sound n start) (small : n < 2 ^ 31 - 1)
    (reached : Reaches handlerStep (Meanwhile others) (· = start) ⟨rx, byte :: bytes⟩)
    (here : rx.stage none = .outside) (unlocked : rx.fifo.mutex = 0) (thread : Thread)
    (running : others thread) (something : rx.fifo.empty ≠ 0) : Blocks others start := by
  have now_sound : Sound n ⟨rx, byte :: bytes⟩ := run_sound sound reached
  have queued : Queued n rx := now_sound.queued
  have empty := queued.units.empty_nonneg
  have enters : ∀ rx : Rx Thread Value,
      Reaches handlerStep (Meanwhile others) (· = start) ⟨rx, byte :: bytes⟩ →
      rx.stage none = .outside → rx.fifo.mutex = 0 → 0 < rx.fifo.empty →
      rx.stage (some thread) = .outside → Blocks others start := by
    intro rx reached here unlocked positive outside
    have takes : step rx (.enter (some thread) .get) =
        some (moveTo { rx with fifo := { rx.fifo with empty := rx.fifo.empty - 1 } } (some thread)
          (.counted .get)) := by
      have some_left : ¬ (rx.fifo.empty = 0 ∨ rx.fifo.empty = int32Min) := by
        unfold int32Min
        omega
      simp [step, outside, takeUnit, cWait, some_left]
    have entered := reaches_thread (.enter (some thread) .get) reached trivial rfl running takes
    exact blocks_caught sound entered (by simpa using here) unlocked thread running (moved_here _ _ _)
  obtain ⟨not_settled, not_loading⟩ := outside_section queued unlocked (some thread)
  have gets : ∀ transfer, transferOf (rx.stage (some thread)) = some transfer → transfer = .get :=
    now_sound.placed.threads thread
  cases stage : rx.stage (some thread) with
  | outside => exact enters rx reached here unlocked (by omega) stage
  | counted transfer =>
      obtain rfl := gets transfer (by simp [stage, transferOf])
      exact blocks_caught sound reached here unlocked thread running stage
  | locked transfer => simp [stage, settled] at not_settled
  | copied transfer =>
      obtain rfl := gets transfer (by simp [stage, transferOf])
      simp [stage, loading] at not_loading
  | advanced transfer => simp [stage, settled] at not_settled
  | unlocked transfer =>
      obtain rfl := gets transfer (by simp [stage, transferOf])
      have room := few_slots queued small
      have leaves : step rx (.leave (some thread)) =
          some (moveTo { rx with fifo := { rx.fifo with full := rx.fifo.full + 1 } } (some thread)
            .outside) := by
        simp [step, stage, giveUnit, cSignal, Int.ne_of_lt room]
      have left_call := reaches_thread (.leave (some thread)) reached trivial rfl running leaves
      exact enters _ left_call (by simpa using here) unlocked (by simp only [moveTo_fifo]; omega)
        (moved_here _ _ _)

end Counts

theorem rx_sound [Fintype Thread] [DecidableEq Thread] {s : Rx Thread Value}
    (reached : Reaches step Roles (Begun 256 1) s) (bytes : List Value) : Sound 256 ⟨s, bytes⟩ := by
  refine ⟨run_queued (by decide) (by decide) (reached.weaken fun _ _ _ => trivial), ?_⟩
  refine reached.invariant Placed ?_ fun _ action _ placed roles stepped =>
    placed_step placed action roles stepped
  rintro _ ⟨_, _, _, _, fifo, _, rfl⟩
  exact ⟨fun transfer inside => by simp [created, transferOf] at inside,
    fun thread transfer inside => by simp [created, transferOf] at inside⟩

section Exactly
variable [Fintype Thread] [DecidableEq Thread] {others : Thread → Prop} {n : Nat}
  {s : Rx Thread Value} {bytes : List Value}

theorem never_blocks_of (sound : Sound n ⟨s, bytes⟩) (small : n < 2 ^ 31 - 1)
    (safe : Handler Thread Value → Prop) (begins : safe ⟨s, bytes⟩)
    (clear : ∀ h, safe h → ¬ CallsSchedBlock h)
    (kept : ∀ h move after, Sound n h → safe h → Meanwhile others h move →
      handlerStep h move = some after → safe after) : NeverBlocks others s bytes := by
  intro h reached
  have both : Sound n h ∧ safe h := by
    refine reached.invariant (fun h => Sound n h ∧ safe h) (by rintro _ rfl; exact ⟨sound, begins⟩) ?_
    rintro before move after ⟨now_sound, now_safe⟩ allowed stepped
    exact ⟨sound_step now_sound move allowed after stepped,
      kept before move after now_sound now_safe allowed stepped⟩
  have unblocked := clear h both.2
  exact ⟨unblocked, own_possible both.1.queued small both.1.placed unblocked⟩

theorem blocks_unless (sound : Sound n ⟨s, bytes⟩) (small : n < 2 ^ 31 - 1)
    (taken : s.stage none = .outside) (some_bytes : bytes ≠ [])
    (fails : ¬ (s.fifo.mutex = 0 ∧ (bytes.length : Int) ≤ s.fifo.full ∧
      ((∀ thread, ¬ others thread) ∨ (bytes.length = 1 ∧ s.fifo.empty = 0 ∧
        ∀ thread, others thread → s.stage (some thread) ≠ .counted .get)))) :
    Blocks others ⟨s, bytes⟩ := by
  have begun : Reaches handlerStep (Meanwhile others) (· = ⟨s, bytes⟩) ⟨s, bytes⟩ := .start rfl
  obtain ⟨byte, rest, rfl⟩ := List.exists_cons_of_ne_nil some_bytes
  by_cases unlocked : s.fifo.mutex = 0
  · by_cases room : ((byte :: rest).length : Int) ≤ s.fifo.full
    · by_cases idle : ∀ thread, ¬ others thread
      · exact absurd ⟨unlocked, room, Or.inl idle⟩ fails
      · push Not at idle
        obtain ⟨thread, running⟩ := idle
        by_cases nothing : s.fifo.empty = 0
        · by_cases last : rest = []
          · -- one byte, nothing to read: some reader must already have its unit
            have caught : ∃ thread, others thread ∧ s.stage (some thread) = .counted .get := by
              by_contra absent
              push Not at absent
              exact fails ⟨unlocked, room, Or.inr ⟨by simp [last], nothing, absent⟩⟩
            obtain ⟨reader, reads, counted⟩ := caught
            exact blocks_caught sound begun taken unlocked reader reads counted
          · -- the first byte gives a running reader something to read
            obtain ⟨next, more, rfl⟩ := List.exists_cons_of_ne_nil last
            have queued : Queued n s := sound.queued
            rw [List.length_cons] at room
            obtain ⟨after, put, outside, free_mutex, _, counts⟩ := own_put queued small begun taken
              unlocked (by omega)
            exact blocks_reader sound small put outside free_mutex thread running (by omega)
        · exact blocks_reader sound small begun taken unlocked thread running nothing
    · exact blocks_full sound small _ s begun taken unlocked (by omega)
  · exact blocks_locked sound begun taken unlocked

end Exactly

/-- The handler gets through all its waits at once, whatever the threads in
`others` do meanwhile, just when there is nothing to receive; or the mutex is
free, there is room for all bytes and no reader runs meanwhile; or one byte is
received while no reader that runs meanwhile can reach the mutex before it. -/
theorem never_blocks_iff [Fintype Thread] [DecidableEq Thread] (s : Rx Thread Value)
    (reached : Reaches step Roles (Begun 256 1) s) (taken : s.stage none = .outside)
    (others : Thread → Prop) (bytes : List Value) :
    NeverBlocks others s bytes ↔
      bytes = [] ∨ (s.fifo.mutex = 0 ∧ (bytes.length : Int) ≤ s.fifo.full ∧
        ((∀ thread, ¬ others thread) ∨ (bytes.length = 1 ∧ s.fifo.empty = 0 ∧
          ∀ thread, others thread → s.stage (some thread) ≠ .counted .get))) := by
  have sound := rx_sound reached bytes
  have small : 256 < 2 ^ 31 - 1 := by decide
  constructor
  · intro never
    by_contra fails
    obtain ⟨some_bytes, rest⟩ := not_or.mp fails
    obtain ⟨h, reached, blocked⟩ : Blocks others ⟨s, bytes⟩ :=
      blocks_unless sound small taken some_bytes rest
    exact (never h reached).1 blocked
  · rintro (rfl | ⟨unlocked, room, quiet | ⟨last, nothing, waiting⟩⟩)
    · refine never_blocks_of sound small (SafeCalm others) ?_ (fun _ safe => safe.clear)
        fun h move after sound safe allowed stepped =>
          safeCalm_step sound small safe move allowed after stepped
      simp [SafeCalm, taken]
    · -- `Meanwhile` allows no step of another party here
      refine never_blocks_of sound small SafeAlone ?_ (fun _ safe => safe.clear) ?_
      · simp only [SafeAlone, taken]
        exact Or.inr ⟨unlocked, room⟩
      · intro h move after sound safe allowed stepped
        cases move with
        | own => exact safeAlone_own sound small safe after stepped
        | other action =>
            obtain ⟨_, thread, _, running⟩ := allowed
            exact absurd running (quiet thread)
    · refine never_blocks_of sound small (SafeCalm others) ?_ (fun _ safe => safe.clear)
        fun h move after sound safe allowed stepped =>
          safeCalm_step sound small safe move allowed after stepped
      simp only [SafeCalm, taken]
      exact Or.inr ⟨last, by omega, unlocked, nothing, waiting⟩

def readerInside : List (Action (Option Unit) Nat) :=
  [.enter none (.put 7), .lock none, .copy none 7, .advance none, .unlock none, .leave none,
    .enter (some ()) .get, .lock (some ())]

theorem begun_rx : Begun 256 1 (created (byteFifo 256) : Rx Unit Nat) :=
  ⟨0x20000800, Heap.heapInit, fun _ => 0, _, byteFifo 256, rfl, rfl⟩

theorem never_blocks_one_byte :
    NeverBlocks (fun _ : Unit => True) (created (byteFifo 256)) [7] :=
  (never_blocks_iff _ (.start begun_rx) rfl _ [7]).mpr
    (Or.inr ⟨rfl, by decide, Or.inr ⟨rfl, rfl, fun _ _ => by simp [created]⟩⟩)

theorem rx_interrupt_blocks :
    ∃ s ∈ exec step (created (byteFifo 256)) readerInside,
      Reaches step Roles (Begun 256 1) s ∧ s.stage none = .outside ∧
        ¬ NeverBlocks (fun _ : Unit => False) s [8] := by
  obtain ⟨s, executed, taken, full, locked⟩ :
      ∃ s ∈ exec step (created (byteFifo 256) : Rx Unit Nat) readerInside,
        s.stage none = .outside ∧ s.fifo.full = 255 ∧ s.fifo.mutex = 1 :=
    ⟨_, rfl, rfl, rfl, rfl⟩
  have allowed : Allowed step Roles (created (byteFifo 256) : Rx Unit Nat) readerInside := by
    decide +kernel
  have reached := exec_reaches readerInside (.start begun_rx) allowed executed
  refine ⟨s, executed, reached, taken, fun never => ?_⟩
  have next := never _ (reaches_own (.start rfl) (.enter taken (by omega)))
  exact next.1 (Or.inr ⟨⟨8, moved_here _ _ _⟩, by simp [locked]⟩)

end MulticoreRtos.UartReceive
