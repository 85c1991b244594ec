import Mathlib.Data.Fintype.Basic
import MulticoreRtos.Transition
import MulticoreRtos.LinkedList

/-!
The binary semaphore of `os/semaphore.c` under any number of threads. A step is
one atomic section of `b_wait` or `b_signal`: `atomic_test_and_set` and
`atomic_clear` under `SPINLOCK31`, the bodies of `sched_block` and
`sched_unblock` under `SCHEDULER`, and the test of `bthreads_root`, which no lock
covers. The blocked list is kept in the order in which `sched_block` inserts.
-/

namespace MulticoreRtos.BinarySemaphore

open Transition LinkedList

universe u
variable {Thread : Type u} [DecidableEq Thread]

inductive Place where
  | outside
  -- `b_wait` has returned and `b_signal` is still to come
  | holding
  -- `atomic_test_and_set` returned 1 and `sched_block` comes next
  | blocking
  | parked
  -- taken off the list, `atomic_test_and_set` comes next
  | retrying
  -- `atomic_clear` is done, the test of `bthreads_root` comes next
  | testing
  -- the test found a waiter, `sched_unblock` comes next
  | unblocking
  deriving DecidableEq

structure State (Thread : Type u) where
  value : Nat
  bthreadsRoot : List Thread
  place : Thread → Place

inductive Action (Thread : Type u) where
  | testAndSet (thread : Thread)
  | schedBlock (thread : Thread)
  | clear (thread : Thread)
  | test (thread : Thread)
  | schedUnblock (thread : Thread)

def initSemaphore (value : Nat) : State Thread := ⟨value, [], fun _ => .outside⟩

def Initial (s : State Thread) : Prop := s = initSemaphore 0 ∨ s = initSemaphore 1

def atomicTestAndSet (lock : Nat) : Nat × Nat := (lock, 1)

def atomicClear : Nat := 0

def step (priority : Thread → Nat) (s : State Thread) : Action Thread → Option (State Thread)
  | .testAndSet thread =>
      if s.place thread = .outside ∨ s.place thread = .retrying then
        let (taken, value) := atomicTestAndSet s.value
        some { s with
          value := value
          place := Function.update s.place thread (if taken = 0 then .holding else .blocking) }
      else none
  | .schedBlock thread =>
      if s.place thread = .blocking then
        some { s with
          bthreadsRoot := insertByKey priority thread s.bthreadsRoot
          place := Function.update s.place thread .parked }
      else none
  | .clear thread =>
      if s.place thread = .holding then
        some { s with value := atomicClear, place := Function.update s.place thread .testing }
      else none
  | .test thread =>
      if s.place thread = .testing then
        some { s with
          place := Function.update s.place thread
            (if s.bthreadsRoot = [] then .outside else .unblocking) }
      else none
  | .schedUnblock thread =>
      if s.place thread = .unblocking then
        match s.bthreadsRoot with
        -- another signaller emptied the list since the test: `sched_unblock` reads through `NULL`
        | [] => none
        | woken :: rest =>
            some { s with
              bthreadsRoot := rest
              place := Function.update (Function.update s.place thread .outside) woken .retrying }
      else none

/-- Every thread is outside both calls or parked. -/
def Quiet (s : State Thread) : Prop :=
  ∀ t, s.place t = .outside ∨ s.place t = .holding ∨ s.place t = .parked

def NoLostWakeup (s : State Thread) : Prop :=
  Quiet s → s.bthreadsRoot ≠ [] → s.value = 1

instance [Fintype Thread] (s : State Thread) : Decidable (Quiet s) :=
  inferInstanceAs (Decidable (∀ _, _))

instance [Fintype Thread] (s : State Thread) : Decidable (NoLostWakeup s) :=
  inferInstanceAs (Decidable (Quiet s → s.bthreadsRoot ≠ [] → s.value = 1))

def Waking (s : State Thread) : Prop :=
  ∃ t, s.place t = .retrying ∨ s.place t = .testing ∨ s.place t = .unblocking

/-- No thread parks on a free semaphore that nobody is about to look at. -/
def Covered (s : State Thread) : Action Thread → Prop
  | .schedBlock _ => s.value = 0 → Waking s
  | _ => True

structure Watched (s : State Thread) : Prop where
  binary : s.value ≤ 1
  waiters : s.bthreadsRoot ≠ [] → s.value = 1 ∨ Waking s

omit [DecidableEq Thread] in
theorem watched_of_taken (s : State Thread) (taken : s.value = 1) : Watched s :=
  ⟨by simp [taken], fun _ => Or.inl taken⟩

omit [DecidableEq Thread] in
theorem watched_initial (s : State Thread) (begun : Initial s) : Watched s := by
  rcases begun with rfl | rfl
  · exact ⟨Nat.zero_le 1, fun waiting => absurd rfl waiting⟩
  · exact watched_of_taken _ rfl

omit [DecidableEq Thread] in
theorem not_quiet_of_waking {s : State Thread} (waking : Waking s) : ¬ Quiet s := by
  rintro quiet
  obtain ⟨t, moving⟩ := waking
  rcases quiet t with still | still | still <;> simp [still] at moving

theorem waking_of_parked {s : State Thread} {thread : Thread} (blocking : s.place thread = .blocking)
    (waking : Waking s) (parked : State Thread)
    (places : parked.place = Function.update s.place thread .parked) : Waking parked := by
  obtain ⟨t, moving⟩ := waking
  have other : t ≠ thread := by
    rintro rfl
    simp [blocking] at moving
  refine ⟨t, ?_⟩
  rw [places, Function.update_of_ne other]
  exact moving

theorem watched_step (priority : Thread → Nat) (s : State Thread) (action : Action Thread)
    (after : State Thread) (watched : Watched s) (covered : Covered s action)
    (stepped : step priority s action = some after) : Watched after := by
  cases action with
  | testAndSet thread =>
      simp only [step, atomicTestAndSet, Option.ite_none_right_eq_some, Option.some.injEq] at stepped
      obtain ⟨_, rfl⟩ := stepped
      exact watched_of_taken _ rfl
  | schedBlock thread =>
      simp only [step, Option.ite_none_right_eq_some, Option.some.injEq] at stepped
      obtain ⟨blocking, rfl⟩ := stepped
      constructor
      · exact watched.binary
      · intro _
        -- the failing test may be long past: the value can be 0 again by now
        by_cases freed : s.value = 0
        · exact Or.inr (waking_of_parked blocking (covered freed) _ rfl)
        · exact Or.inl (le_antisymm watched.binary (Nat.pos_of_ne_zero freed))
  | clear thread =>
      simp only [step, Option.ite_none_right_eq_some, Option.some.injEq] at stepped
      obtain ⟨_, rfl⟩ := stepped
      constructor
      · exact Nat.zero_le 1
      · exact fun _ => Or.inr ⟨thread, by simp⟩
  | test thread =>
      simp only [step, Option.ite_none_right_eq_some, Option.some.injEq] at stepped
      obtain ⟨_, rfl⟩ := stepped
      constructor
      · exact watched.binary
      · intro waiting
        exact Or.inr ⟨thread, by simp [show s.bthreadsRoot ≠ [] from waiting]⟩
  | schedUnblock thread =>
      cases list : s.bthreadsRoot with
      | nil => simp [step, list] at stepped
      | cons woken rest =>
          simp only [step, list, Option.ite_none_right_eq_some, Option.some.injEq] at stepped
          obtain ⟨_, rfl⟩ := stepped
          constructor
          · exact watched.binary
          · exact fun _ => Or.inr ⟨woken, by simp⟩

theorem run_watched (priority : Thread → Nat) {s : State Thread}
    (reached : Reaches (step priority) Covered Initial s) : Watched s :=
  reached.invariant Watched watched_initial (watched_step priority)

/-- In a run in which no thread parks on a free semaphore that nobody is about
to look at, the semaphore is taken in every quiet state that has waiters. -/
theorem waiters_have_holder (priority : Thread → Nat) (s : State Thread)
    (reached : Reaches (step priority) Covered Initial s) : NoLostWakeup s := by
  intro quiet waiting
  rcases (run_watched priority reached).waiters waiting with taken | waking
  · exact taken
  · exact absurd quiet (not_quiet_of_waking waking)

/-- Thread 0 takes the semaphore and thread 1 parks behind it. -/
theorem waiters_have_holder_contended :
    ∃ s ∈ exec (step fun _ => 0) (initSemaphore 0 : State (Fin 2))
        [.testAndSet 0, .testAndSet 1, .schedBlock 1],
      s.bthreadsRoot = [1] ∧ NoLostWakeup s := by
  have begun : Initial (initSemaphore 0 : State (Fin 2)) := Or.inl rfl
  have covered : Allowed (step fun _ => 0) Covered (initSemaphore 0 : State (Fin 2))
      [.testAndSet 0, .testAndSet 1, .schedBlock 1] :=
    And.intro trivial (And.intro trivial (And.intro (fun freed => nomatch freed) trivial))
  exact ⟨_, rfl, rfl, waiters_have_holder _ _ (exec_reaches _ (.start begun) covered rfl)⟩

/-- Thread 1 fails the test, thread 0 signals an empty list, thread 1 parks. -/
theorem waiter_parks_on_free_semaphore :
    ∃ s, Reaches (step fun _ => 0) free (Initial : State (Fin 2) → Prop) s ∧ ¬ NoLostWakeup s := by
  obtain ⟨s, executed, lost⟩ : ∃ s ∈ exec (step fun _ => 0) (initSemaphore 0 : State (Fin 2))
      [.testAndSet 0, .testAndSet 1, .clear 0, .test 0, .schedBlock 1], ¬ NoLostWakeup s := by
    decide
  have begun : Initial (initSemaphore 0 : State (Fin 2)) := Or.inl rfl
  exact ⟨s, exec_reaches _ (.start begun) (allowed_free _ _ _) executed, lost⟩

end MulticoreRtos.BinarySemaphore
