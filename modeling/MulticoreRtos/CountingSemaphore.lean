import Mathlib.Data.Fintype.Basic
import MulticoreRtos.Transition
import MulticoreRtos.LinkedList
import MulticoreRtos.Population

/-!
The counting semaphore of `os/semaphore.c` under any number of threads. A step is
one section of `c_wait` or `c_signal` under `COUNTING_SEMA4`, or the body of
`sched_block`, which runs after `c_wait` has released that lock and enabled
interrupts again.
-/

namespace MulticoreRtos.CountingSemaphore

open Transition LinkedList Population

universe u
variable {Thread : Type u} [DecidableEq Thread]

inductive Place where
  | outside
  -- the test found the value 0 and the lock is released, `sched_block` comes next
  | blocking
  | parked
  -- taken off the list, the lock and the test come next
  | retrying
  deriving DecidableEq

structure State (Thread : Type u) where
  value : Nat
  bthreadsRoot : List Thread
  place : Thread → Place

inductive Action (Thread : Type u) where
  | wait (thread : Thread)
  | schedBlock (thread : Thread)
  | retry (thread : Thread)
  | signal

def int32Max : Nat := 2147483647

def initSemaphore (value : Nat) : State Thread := ⟨value, [], fun _ => .outside⟩

def Initial (s : State Thread) : Prop := ∃ value ≤ int32Max, s = initSemaphore value

def testSection (s : State Thread) (thread : Thread) : State Thread :=
  if s.value = 0 then { s with place := Function.update s.place thread .blocking }
  else { s with value := s.value - 1, place := Function.update s.place thread .outside }

def step (priority : Thread → Nat) (s : State Thread) : Action Thread → Option (State Thread)
  | .wait thread => if s.place thread = .outside then some (testSection s thread) else none
  | .retry thread => if s.place thread = .retrying then some (testSection s thread) else none
  | .schedBlock thread =>
      if s.place thread = .blocking then
        some { s with
          bthreadsRoot := insertByKey priority thread s.bthreadsRoot
          place := Function.update s.place thread .parked }
      else none
  | .signal =>
      -- `value++` on the largest `int32_t` is undefined
      if s.value = int32Max then none
      else
        match s.bthreadsRoot with
        | [] => some { s with value := s.value + 1 }
        | woken :: rest =>
            some ⟨s.value + 1, rest, Function.update s.place woken .retrying⟩

def Quiet (s : State Thread) : Prop := ∀ t, s.place t = .outside ∨ s.place t = .parked

instance [Fintype Thread] (s : State Thread) : Decidable (Quiet s) :=
  inferInstanceAs (Decidable (∀ _, _))

def NoLostWakeup (s : State Thread) : Prop :=
  Quiet s → s.bthreadsRoot ≠ [] → s.value = 0

instance [Fintype Thread] (s : State Thread) : Decidable (NoLostWakeup s) :=
  inferInstanceAs (Decidable (Quiet s → s.bthreadsRoot ≠ [] → s.value = 0))

variable [Fintype Thread]

def isRetrying : Place → Bool
  | .retrying => true
  | _ => false

def retrying (s : State Thread) : Nat := tally isRetrying s.place

/-- A thread parks only when the woken threads can use up the whole count. -/
def SpokenFor (s : State Thread) : Action Thread → Prop
  | .schedBlock _ => s.value ≤ retrying s
  | _ => True

structure Balanced (s : State Thread) : Prop where
  listed : ∀ t ∈ s.bthreadsRoot, s.place t = .parked
  distinct : s.bthreadsRoot.Nodup
  spoken : s.bthreadsRoot ≠ [] → s.value ≤ retrying s

omit [DecidableEq Thread] in
theorem balanced_initial (s : State Thread) (begun : Initial s) : Balanced s := by
  obtain ⟨value, _, rfl⟩ := begun
  exact ⟨fun _ member => (nomatch member), List.nodup_nil, fun waiting => absurd rfl waiting⟩

theorem retrying_update (s : State Thread) (thread : Thread) (target : Place) :
    tally isRetrying (Function.update s.place thread target) + (isRetrying (s.place thread)).toNat =
      retrying s + (isRetrying target).toNat :=
  tally_update isRetrying s.place thread target

omit [Fintype Thread] in
theorem listed_update {s : State Thread} (listed : ∀ t ∈ s.bthreadsRoot, s.place t = .parked)
    (thread : Thread) (target : Place) (away : s.place thread ≠ .parked) :
    ∀ t ∈ s.bthreadsRoot, Function.update s.place thread target t = .parked := by
  intro t member
  have other : t ≠ thread := by
    rintro rfl
    exact away (listed t member)
  rw [Function.update_of_ne other]
  exact listed t member

/-- A woken thread takes its unit with it, or leaves a count of 0 behind. -/
theorem balanced_test {s : State Thread} (balanced : Balanced s) (thread : Thread)
    (away : s.place thread ≠ .parked) : Balanced (testSection s thread) := by
  by_cases empty : s.value = 0
  · rw [testSection, if_pos empty]
    refine ⟨listed_update balanced.listed thread _ away, balanced.distinct, fun _ => ?_⟩
    simp [empty]
  · rw [testSection, if_neg empty]
    refine ⟨listed_update balanced.listed thread _ away, balanced.distinct, fun waiting => ?_⟩
    have enough := balanced.spoken waiting
    have moved := retrying_update s thread .outside
    have lost : (isRetrying (s.place thread)).toNat ≤ 1 := Bool.toNat_le _
    change s.value - 1 ≤ tally isRetrying (Function.update s.place thread .outside)
    simp only [isRetrying, Bool.toNat_false] at moved lost
    omega

theorem balanced_block {s : State Thread} (balanced : Balanced s) (priority : Thread → Nat)
    (thread : Thread) (blocking : s.place thread = .blocking) (spoken : s.value ≤ retrying s) :
    Balanced { s with
      bthreadsRoot := insertByKey priority thread s.bthreadsRoot
      place := Function.update s.place thread .parked } := by
  have away : s.place thread ≠ .parked := by simp [blocking]
  constructor
  · intro t member
    rcases (mem_insertByKey priority thread t s.bthreadsRoot).mp member with rfl | old
    · exact Function.update_self _ _ _
    · exact listed_update balanced.listed thread _ away t old
  · exact nodup_insertByKey priority thread _ (fun member => away (balanced.listed thread member))
      balanced.distinct
  · intro _
    have moved := retrying_update s thread .parked
    rw [blocking] at moved
    change s.value ≤ tally isRetrying (Function.update s.place thread .parked)
    exact spoken.trans_eq moved.symm

theorem balanced_wake {s : State Thread} (balanced : Balanced s) (woken : Thread)
    (rest : List Thread) (list : s.bthreadsRoot = woken :: rest) :
    Balanced ⟨s.value + 1, rest, Function.update s.place woken .retrying⟩ := by
  have distinct := balanced.distinct
  have listed := balanced.listed
  have enough := balanced.spoken (by simp [list])
  rw [list] at distinct listed
  obtain ⟨fresh, rest_distinct⟩ := List.nodup_cons.mp distinct
  refine ⟨?_, rest_distinct, fun _ => ?_⟩
  · intro t member
    have other : t ≠ woken := fun same => fresh (same ▸ member)
    change Function.update s.place woken .retrying t = .parked
    rw [Function.update_of_ne other]
    exact listed t (List.mem_cons_of_mem _ member)
  · have moved := retrying_update s woken .retrying
    rw [listed woken List.mem_cons_self] at moved
    change s.value + 1 ≤ tally isRetrying (Function.update s.place woken .retrying)
    exact (Nat.succ_le_succ enough).trans_eq moved.symm

theorem balanced_step (priority : Thread → Nat) (s : State Thread) (action : Action Thread)
    (after : State Thread) (balanced : Balanced s) (spoken : SpokenFor s action)
    (stepped : step priority s action = some after) : Balanced after := by
  cases action with
  | wait thread =>
      simp only [step, Option.ite_none_right_eq_some, Option.some.injEq] at stepped
      obtain ⟨here, rfl⟩ := stepped
      exact balanced_test balanced thread (by simp [here])
  | retry thread =>
      simp only [step, Option.ite_none_right_eq_some, Option.some.injEq] at stepped
      obtain ⟨here, rfl⟩ := stepped
      exact balanced_test balanced thread (by simp [here])
  | schedBlock thread =>
      simp only [step, Option.ite_none_right_eq_some, Option.some.injEq] at stepped
      obtain ⟨here, rfl⟩ := stepped
      exact balanced_block balanced priority thread here spoken
  | signal =>
      cases list : s.bthreadsRoot with
      | nil =>
          simp only [step, list, Option.ite_none_left_eq_some, Option.some.injEq] at stepped
          obtain ⟨_, rfl⟩ := stepped
          exact ⟨fun _ member => (nomatch member), List.nodup_nil, fun waiting => absurd rfl waiting⟩
      | cons woken rest =>
          simp only [step, list, Option.ite_none_left_eq_some, Option.some.injEq] at stepped
          obtain ⟨_, rfl⟩ := stepped
          exact balanced_wake balanced woken rest list

theorem run_balanced (priority : Thread → Nat) {s : State Thread}
    (reached : Reaches (step priority) SpokenFor Initial s) : Balanced s :=
  reached.invariant Balanced balanced_initial (balanced_step priority)

/-- In a run in which every thread that parks finds the count spoken for by woken
threads, a quiet state with waiters has the value 0. -/
theorem waiters_imply_zero (priority : Thread → Nat) (s : State Thread)
    (reached : Reaches (step priority) SpokenFor Initial s) : NoLostWakeup s := by
  intro quiet waiting
  have nobody : retrying s = 0 := by
    apply tally_zero
    intro t woken
    rcases quiet t with still | still <;> simp [still, isRetrying] at woken
  have enough := (run_balanced priority reached).spoken waiting
  omega

/-- A thread waits on an empty semaphore and parks. -/
theorem waiters_imply_zero_parked :
    ∃ s ∈ exec (step fun _ => 0) (initSemaphore 0 : State (Fin 2)) [.wait 1, .schedBlock 1],
      s.bthreadsRoot = [1] ∧ NoLostWakeup s := by
  have begun : Initial (initSemaphore 0 : State (Fin 2)) := ⟨0, by decide, rfl⟩
  have spoken : Allowed (step fun _ => 0) SpokenFor (initSemaphore 0 : State (Fin 2))
      [.wait 1, .schedBlock 1] :=
    And.intro trivial (And.intro (Nat.zero_le _) trivial)
  exact ⟨_, rfl, rfl, waiters_imply_zero _ _ (exec_reaches _ (.start begun) spoken rfl)⟩

/-- The signal comes between the failing test and `sched_block`. -/
theorem waiter_parks_on_positive_count :
    ∃ s, Reaches (step fun _ => 0) free (Initial : State (Fin 2) → Prop) s ∧ ¬ NoLostWakeup s := by
  obtain ⟨s, executed, lost⟩ : ∃ s ∈ exec (step fun _ => 0) (initSemaphore 0 : State (Fin 2))
      [.wait 1, .signal, .schedBlock 1], ¬ NoLostWakeup s := by
    decide
  have begun : Initial (initSemaphore 0 : State (Fin 2)) := ⟨0, by decide, rfl⟩
  exact ⟨s, exec_reaches _ (.start begun) (allowed_free _ _ _) executed, lost⟩

end MulticoreRtos.CountingSemaphore
