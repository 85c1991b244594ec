import MulticoreRtos.BinarySemaphore
import MulticoreRtos.CountingSemaphore

/-!
Safety of both semaphores of `os/semaphore.c` under any number of threads and any
order of their sections. The count is an `int32_t` here, beside ghost counters of
the signals and of the waits that have returned. `b_signal` tests `bthreads_root`
before it takes the lock of `sched_unblock`, so two signallers can have seen the
same waiter.
-/

namespace MulticoreRtos.SemaphoreSafety

open Transition LinkedList Population

universe u
variable {Thread : Type u} [DecidableEq Thread]

/-- The thread has the semaphore, or goes to block. -/
theorem testAndSet_moves {priority : Thread → Nat} {s after : BinarySemaphore.State Thread}
    {thread : Thread}
    (stepped : BinarySemaphore.step priority s (.testAndSet thread) = some after) :
    (s.value = 0 ∧
      after = { s with value := 1, place := Function.update s.place thread .holding }) ∨
    after = { s with value := 1, place := Function.update s.place thread .blocking } := by
  by_cases available : s.value = 0
  · simp only [BinarySemaphore.step, BinarySemaphore.atomicTestAndSet, available, if_true,
      Option.ite_none_right_eq_some, Option.some.injEq] at stepped
    exact Or.inl ⟨available, stepped.2.symm⟩
  · simp only [BinarySemaphore.step, BinarySemaphore.atomicTestAndSet, available, if_false,
      Option.ite_none_right_eq_some, Option.some.injEq] at stepped
    exact Or.inr stepped.2.symm

/-! At most one thread is between its `b_wait` and its `b_signal`. -/
section Exclusion
open BinarySemaphore

structure Exclusive (s : BinarySemaphore.State Thread) : Prop where
  single : ∀ t u, s.place t = .holding → s.place u = .holding → t = u
  vacant : s.value = 0 → ∀ t, s.place t ≠ .holding

theorem holder_before {place : Thread → BinarySemaphore.Place} {thread t : Thread}
    {target : BinarySemaphore.Place} (elsewhere : target ≠ .holding)
    (holds : Function.update place thread target t = .holding) : t ≠ thread ∧ place t = .holding := by
  by_cases same : t = thread
  · subst same
    rw [Function.update_self] at holds
    exact absurd holds elsewhere
  · rw [Function.update_of_ne same] at holds
    exact ⟨same, holds⟩

theorem Exclusive.move {s : BinarySemaphore.State Thread} (exclusive : Exclusive s) (thread : Thread)
    (target : BinarySemaphore.Place) (elsewhere : target ≠ .holding) (value : Nat)
    (kept : value = 0 → s.value = 0 ∨ s.place thread = .holding) (bthreadsRoot : List Thread) :
    Exclusive ⟨value, bthreadsRoot, Function.update s.place thread target⟩ := by
  constructor
  · intro t u t_holds u_holds
    exact exclusive.single t u (holder_before elsewhere t_holds).2 (holder_before elsewhere u_holds).2
  · intro released t t_holds
    obtain ⟨other, held⟩ := holder_before elsewhere t_holds
    rcases kept released with already | holder
    · exact exclusive.vacant already t held
    · exact other (exclusive.single t thread held holder)

theorem Exclusive.take {s : BinarySemaphore.State Thread} (exclusive : Exclusive s) (thread : Thread)
    (available : s.value = 0) :
    Exclusive { s with value := 1, place := Function.update s.place thread .holding } := by
  have only : ∀ t, Function.update s.place thread .holding t = .holding → t = thread := by
    intro t holds
    by_contra other
    rw [Function.update_of_ne other] at holds
    exact exclusive.vacant available t holds
  exact ⟨fun t u t_holds u_holds => (only t t_holds).trans (only u u_holds).symm,
    fun released => absurd released Nat.one_ne_zero⟩

theorem exclusive_step (priority : Thread → Nat) (s : BinarySemaphore.State Thread)
    (action : BinarySemaphore.Action Thread) (after : BinarySemaphore.State Thread)
    (exclusive : Exclusive s) (stepped : BinarySemaphore.step priority s action = some after) :
    Exclusive after := by
  cases action with
  | testAndSet thread =>
      rcases testAndSet_moves stepped with ⟨available, rfl⟩ | rfl
      · exact exclusive.take thread available
      · exact exclusive.move thread _ (by decide) 1 (fun zero => absurd zero Nat.one_ne_zero) _
  | schedBlock thread =>
      simp only [BinarySemaphore.step, Option.ite_none_right_eq_some, Option.some.injEq] at stepped
      obtain ⟨_, rfl⟩ := stepped
      exact exclusive.move thread _ (by decide) _ Or.inl _
  | clear thread =>
      simp only [BinarySemaphore.step, Option.ite_none_right_eq_some, Option.some.injEq] at stepped
      obtain ⟨holding, rfl⟩ := stepped
      exact exclusive.move thread _ (by decide) _ (fun _ => Or.inr holding) _
  | test thread =>
      simp only [BinarySemaphore.step, Option.ite_none_right_eq_some, Option.some.injEq] at stepped
      obtain ⟨_, rfl⟩ := stepped
      refine exclusive.move thread _ ?_ _ Or.inl _
      split <;> decide
  | schedUnblock thread =>
      cases list : s.bthreadsRoot with
      | nil => simp [BinarySemaphore.step, list] at stepped
      | cons woken rest =>
          simp only [BinarySemaphore.step, list, Option.ite_none_right_eq_some,
            Option.some.injEq] at stepped
          obtain ⟨_, rfl⟩ := stepped
          have left := exclusive.move thread .outside (by decide) _ Or.inl rest
          exact left.move woken _ (by decide) _ Or.inl _

theorem run_exclusive (priority : Thread → Nat) {s : BinarySemaphore.State Thread}
    (reached : Reaches (BinarySemaphore.step priority) free (· = BinarySemaphore.initSemaphore 0) s) :
    Exclusive s :=
  reached.invariant Exclusive
    (by
      rintro _ rfl
      constructor
      · intro t _ holds
        cases holds
      · intro _ t holds
        cases holds)
    fun before action after exclusive _ => exclusive_step priority before action after exclusive

end Exclusion

/-! The count of a counting semaphore. -/
section Counting
open CountingSemaphore (Place Action)

/-- `signals` and `completed` are ghosts: the calls of `c_signal` and the calls of
`c_wait` that have taken their unit. -/
structure Counter (Thread : Type u) where
  value : Int
  bthreadsRoot : List Thread
  place : Thread → Place
  signals : Nat
  completed : Nat

def int32 (x : Int) : Int := Int.bmod x (2 ^ 32)

theorem int32_small (x : Int) (low : -2 ^ 31 ≤ x) (high : x < 2 ^ 31) : int32 x = x := by
  have modulus : ((2 ^ 32 : Nat) : Int) = 4294967296 := rfl
  simp only [int32, Int.bmod, modulus]
  omega

def initCounter (value : Nat) : Counter Thread := ⟨value, [], fun _ => .outside, 0, 0⟩

def testSection (s : Counter Thread) (thread : Thread) : Counter Thread :=
  if s.value = 0 then { s with place := Function.update s.place thread .blocking }
  else { s with
    value := int32 (s.value - 1)
    place := Function.update s.place thread .outside
    completed := s.completed + 1 }

def signalSection (s : Counter Thread) : Counter Thread :=
  let counted := { s with value := int32 (s.value + 1), signals := s.signals + 1 }
  match s.bthreadsRoot with
  | [] => counted
  | woken :: rest =>
      { counted with bthreadsRoot := rest, place := Function.update s.place woken .retrying }

def step (priority : Thread → Nat) (s : Counter Thread) : Action Thread → Option (Counter Thread)
  | .wait thread => if s.place thread = .outside then some (testSection s thread) else none
  | .retry thread => if s.place thread = .retrying then some (testSection s thread) else none
  | .schedBlock thread =>
      if s.place thread = .blocking then
        some { s with
          bthreadsRoot := insertByKey priority thread s.bthreadsRoot
          place := Function.update s.place thread .parked }
      else none
  | .signal => some (signalSection s)

def Counted (n : Nat) (s : Counter Thread) : Prop :=
  n + s.signals < 2 ^ 31 → s.value = n + s.signals - s.completed ∧ 0 ≤ s.value

theorem counted_test {n : Nat} {s : Counter Thread} (counted : Counted n s) (thread : Thread) :
    Counted n (testSection s thread) := by
  unfold testSection
  split
  · exact counted
  · next taken =>
      intro few
      change n + s.signals < 2 ^ 31 at few
      obtain ⟨exact_count, positive⟩ := counted few
      have kept : int32 (s.value - 1) = s.value - 1 := int32_small _ (by omega) (by omega)
      simp only [kept]
      omega

theorem counted_signal {n : Nat} {s : Counter Thread} (counted : Counted n s) :
    Counted n (signalSection s) := by
  have law : n + (s.signals + 1) < 2 ^ 31 →
      int32 (s.value + 1) = n + (s.signals + 1 : Nat) - s.completed ∧ 0 ≤ int32 (s.value + 1) := by
    intro few
    obtain ⟨exact_count, positive⟩ := counted (by omega)
    have kept : int32 (s.value + 1) = s.value + 1 := int32_small _ (by omega) (by omega)
    rw [kept]
    omega
  unfold signalSection
  split
  · exact law
  · exact law

theorem counted_step (priority : Thread → Nat) (n : Nat) (s : Counter Thread)
    (action : Action Thread) (after : Counter Thread) (counted : Counted n s)
    (stepped : step priority s action = some after) : Counted n after := by
  cases action with
  | wait thread =>
      simp only [step, Option.ite_none_right_eq_some, Option.some.injEq] at stepped
      obtain ⟨_, rfl⟩ := stepped
      exact counted_test counted thread
  | retry thread =>
      simp only [step, Option.ite_none_right_eq_some, Option.some.injEq] at stepped
      obtain ⟨_, rfl⟩ := stepped
      exact counted_test counted thread
  | schedBlock thread =>
      simp only [step, Option.ite_none_right_eq_some, Option.some.injEq] at stepped
      obtain ⟨_, rfl⟩ := stepped
      exact counted
  | signal =>
      simp only [step, Option.some.injEq] at stepped
      subst stepped
      exact counted_signal counted

theorem run_counted (priority : Thread → Nat) (n : Nat) {s : Counter Thread}
    (reached : Reaches (step priority) free (· = initCounter n) s) : Counted n s :=
  reached.invariant (Counted n)
    (by
      rintro _ rfl _
      simp [initCounter])
    fun before action after counted _ => counted_step priority n before action after counted

end Counting

/-- Mutual exclusion of the binary semaphore and the law of the counting one. -/
theorem semaphores_safe (Thread : Type u) [DecidableEq Thread] (priority : Thread → Nat) :
    (∀ s, Reaches (BinarySemaphore.step priority) free (· = BinarySemaphore.initSemaphore 0) s →
      ∀ t u : Thread, s.place t = .holding → s.place u = .holding → t = u) ∧
    ∀ (n : Nat) (s : Counter Thread), Reaches (step priority) free (· = initCounter n) s →
      n + s.signals < 2 ^ 31 → s.value = n + s.signals - s.completed ∧ 0 ≤ s.value :=
  ⟨fun _ reached => (run_exclusive priority reached).single,
    fun n _ reached => run_counted priority n reached⟩

/-- A unit for one thread, a signal for the other. -/
theorem semaphores_safe_shared :
    ∃ s ∈ exec (step fun _ => 0) (initCounter 1 : Counter (Fin 2))
        [.wait 0, .wait 1, .schedBlock 1, .signal, .retry 1],
      s.completed = 2 ∧ s.value = 1 + s.signals - s.completed ∧ 0 ≤ s.value := by
  obtain ⟨s, executed, two, few⟩ : ∃ s ∈ exec (step fun _ => 0) (initCounter 1 : Counter (Fin 2))
      [.wait 0, .wait 1, .schedBlock 1, .signal, .retry 1],
      s.completed = 2 ∧ 1 + s.signals < 2 ^ 31 := ⟨_, rfl, by decide, by decide⟩
  have begun : Reaches (step fun _ => 0) free (· = (initCounter 1 : Counter (Fin 2))) (initCounter 1) :=
    .start rfl
  have reached := exec_reaches _ begun (allowed_free _ _ _) executed
  exact ⟨s, executed, two, (semaphores_safe (Fin 2) fun _ => 0).2 1 s reached few⟩

/-! The window of `b_signal` between the test of `bthreads_root` and `sched_unblock`. -/
section Window
open BinarySemaphore

/-- No thread is about to enter `sched_unblock` with an empty list. -/
def WakesSomeone (s : BinarySemaphore.State Thread) : Prop :=
  ∀ t, s.place t = .unblocking → s.bthreadsRoot ≠ []

instance [Fintype Thread] (s : BinarySemaphore.State Thread) : Decidable (WakesSomeone s) :=
  inferInstanceAs (Decidable (∀ _, _))

variable [Fintype Thread]

def isUnblocking : BinarySemaphore.Place → Bool
  | .unblocking => true
  | _ => false

def unblocking (s : BinarySemaphore.State Thread) : Nat := tally isUnblocking s.place

/-- A thread finds a waiter only if there is one for it beside those the threads
in the window will take. -/
def Unclaimed (s : BinarySemaphore.State Thread) : BinarySemaphore.Action Thread → Prop
  | .test _ => s.bthreadsRoot ≠ [] → unblocking s < s.bthreadsRoot.length
  | _ => True

def Matched (s : BinarySemaphore.State Thread) : Prop := unblocking s ≤ s.bthreadsRoot.length

omit [DecidableEq Thread] in
theorem Matched.wakes {s : BinarySemaphore.State Thread} (claimed : Matched s) : WakesSomeone s := by
  intro t inside empty
  have one := tally_pos isUnblocking s.place t (by simp [inside, isUnblocking])
  rw [Matched, empty] at claimed
  exact absurd one (Nat.not_lt.mpr claimed)

theorem unblocking_update (s : BinarySemaphore.State Thread) (thread : Thread)
    (target : BinarySemaphore.Place) :
    tally isUnblocking (Function.update s.place thread target) +
        (isUnblocking (s.place thread)).toNat =
      unblocking s + (isUnblocking target).toNat :=
  tally_update isUnblocking s.place thread target

theorem Matched.move {s : BinarySemaphore.State Thread} (claimed : Matched s) (thread : Thread)
    (target : BinarySemaphore.Place) (outside : isUnblocking target = false) (value : Nat)
    (bthreadsRoot : List Thread) (kept : s.bthreadsRoot.length ≤ bthreadsRoot.length) :
    Matched ⟨value, bthreadsRoot, Function.update s.place thread target⟩ := by
  have moved := unblocking_update s thread target
  rw [outside, Bool.toNat_false, Nat.add_zero] at moved
  exact (Nat.le_of_add_right_le moved.le).trans (claimed.trans kept)

theorem matched_step (priority : Thread → Nat) (s : BinarySemaphore.State Thread)
    (action : BinarySemaphore.Action Thread) (after : BinarySemaphore.State Thread)
    (claimed : Matched s) (unclaimed : Unclaimed s action)
    (stepped : BinarySemaphore.step priority s action = some after) : Matched after := by
  cases action with
  | testAndSet thread =>
      rcases testAndSet_moves stepped with ⟨_, rfl⟩ | rfl
      · exact claimed.move thread _ rfl _ _ le_rfl
      · exact claimed.move thread _ rfl _ _ le_rfl
  | schedBlock thread =>
      simp only [BinarySemaphore.step, Option.ite_none_right_eq_some, Option.some.injEq] at stepped
      obtain ⟨_, rfl⟩ := stepped
      refine claimed.move thread _ rfl _ _ ?_
      rw [length_insertByKey]
      exact Nat.le_succ _
  | clear thread =>
      simp only [BinarySemaphore.step, Option.ite_none_right_eq_some, Option.some.injEq] at stepped
      obtain ⟨_, rfl⟩ := stepped
      exact claimed.move thread _ rfl _ _ le_rfl
  | test thread =>
      simp only [BinarySemaphore.step, Option.ite_none_right_eq_some, Option.some.injEq] at stepped
      obtain ⟨testing, rfl⟩ := stepped
      by_cases empty : s.bthreadsRoot = []
      · rw [if_pos empty]
        exact claimed.move thread _ rfl _ _ le_rfl
      · rw [if_neg empty]
        -- the list holds more threads than there are signallers that count on them
        have room := unclaimed empty
        have moved := unblocking_update s thread .unblocking
        rw [testing] at moved
        exact moved.trans_le room
  | schedUnblock thread =>
      cases list : s.bthreadsRoot with
      | nil => simp [BinarySemaphore.step, list] at stepped
      | cons woken rest =>
          simp only [BinarySemaphore.step, list, Option.ite_none_right_eq_some,
            Option.some.injEq] at stepped
          obtain ⟨inside, rfl⟩ := stepped
          have left := unblocking_update s thread .outside
          rw [inside] at left
          rw [Matched, list, List.length_cons] at claimed
          have after_left : Matched ⟨s.value, rest, Function.update s.place thread .outside⟩ :=
            Nat.le_of_succ_le_succ (left.trans_le claimed)
          exact after_left.move woken _ rfl _ _ le_rfl

theorem run_matched (priority : Thread → Nat) {s : BinarySemaphore.State Thread}
    (reached : Reaches (BinarySemaphore.step priority) Unclaimed BinarySemaphore.Initial s) :
    Matched s :=
  reached.invariant Matched
    (by
      intro s begun
      have nobody : unblocking s = 0 := by
        apply tally_zero
        intro t
        rcases begun with rfl | rfl <;> simp [initSemaphore, isUnblocking]
      exact nobody.trans_le (Nat.zero_le _))
    (matched_step priority)

/-- In a run in which no test counts on a waiter that is spoken for, `sched_unblock`
always finds one. -/
theorem unblock_finds_waiter (priority : Thread → Nat) (s : BinarySemaphore.State Thread)
    (reached : Reaches (BinarySemaphore.step priority) Unclaimed BinarySemaphore.Initial s) :
    WakesSomeone s :=
  (run_matched priority reached).wakes

theorem unblock_finds_waiter_two :
    ∃ s ∈ exec (BinarySemaphore.step fun _ => 0) (initSemaphore 0 : BinarySemaphore.State (Fin 2))
        [.testAndSet 0, .testAndSet 1, .schedBlock 1, .clear 0, .test 0],
      s.place 0 = .unblocking ∧ WakesSomeone s := by
  obtain ⟨s, executed, inside⟩ : ∃ s ∈ exec (BinarySemaphore.step fun _ => 0)
      (initSemaphore 0 : BinarySemaphore.State (Fin 2))
      [.testAndSet 0, .testAndSet 1, .schedBlock 1, .clear 0, .test 0], s.place 0 = .unblocking :=
    ⟨_, rfl, by decide⟩
  have begun : BinarySemaphore.Initial (initSemaphore 0 : BinarySemaphore.State (Fin 2)) := Or.inl rfl
  have unclaimed : Allowed (BinarySemaphore.step fun _ => 0) Unclaimed
      (initSemaphore 0 : BinarySemaphore.State (Fin 2))
      [.testAndSet 0, .testAndSet 1, .schedBlock 1, .clear 0, .test 0] :=
    And.intro trivial (And.intro trivial (And.intro trivial (And.intro trivial
      (And.intro (fun _ => by decide) trivial))))
  exact ⟨s, executed, inside,
    unblock_finds_waiter _ _ (exec_reaches _ (.start begun) unclaimed executed)⟩

/-- Thread 1 is parked. Thread 0 clears the value and sees it; thread 2, on the other
core, takes the free semaphore, gives it back and sees the same waiter. -/
theorem two_signallers_one_waiter :
    ∃ s, Reaches (BinarySemaphore.step fun _ => 0) free
        (BinarySemaphore.Initial : BinarySemaphore.State (Fin 3) → Prop) s ∧ ¬ WakesSomeone s := by
  obtain ⟨s, executed, faulty⟩ : ∃ s ∈ exec (BinarySemaphore.step fun _ => 0)
      (initSemaphore 0 : BinarySemaphore.State (Fin 3))
      [.testAndSet 0, .testAndSet 1, .schedBlock 1, .clear 0, .test 0, .testAndSet 2, .clear 2,
        .test 2, .schedUnblock 0], ¬ WakesSomeone s := by
    decide
  have begun : BinarySemaphore.Initial (initSemaphore 0 : BinarySemaphore.State (Fin 3)) := Or.inl rfl
  exact ⟨s, exec_reaches _ (.start begun) (allowed_free _ _ _) executed, faulty⟩

end Window

end MulticoreRtos.SemaphoreSafety
