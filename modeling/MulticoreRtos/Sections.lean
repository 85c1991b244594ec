import MulticoreRtos.Dispatch

/-!
The sections of `sched_block`, `sched_unblock`, `sleep`, `unsleep` and
`add_thread` as moves of one thread between lists. Each completes, and each
leaves TCBs on no list, the priorities and the idle level alone.
-/

namespace MulticoreRtos.Scheduler

open LinkedList
open Heap (null)

variable {Sem : Type} {slots : Slots} {k k' : Shared Sem} {q q' : Queues Sem}

structure Moved (slots : Slots) (k k' : Shared Sem) (q q' : Queues Sem) : Prop where
  rep : Rep slots k' q'
  alive : ∀ x, q'.place x = .gone ↔ q.place x = .gone
  unlinked : ∀ x, q.place x = .gone → k'.state x = k.state x
  priority : k'.priority = k.priority
  idleLevel : k'.activePriorityCount idlePriority = k.activePriorityCount idlePriority

variable [DecidableEq Sem]

/-! A waiting thread becomes active -/

def Queues.wake (q : Queues Sem) (t p : Nat) (rest : List Nat) : Queues Sem :=
  (q.leave t rest).enter t (.ready p) (t :: q.members (.ready p))

section Wake
variable {t p : Nat} {rest : List Nat} {spot : Place Sem}

theorem wake_members (here : q.place t = spot) (away : ∀ r, spot ≠ .ready r) (other : Place Sem)
    (chained : ∀ r, other ≠ .ready r) :
    (q.wake t p rest).members other = if other = spot then rest else q.members other := by
  subst here
  simp [Queues.wake, Queues.enter, Queues.leave, Function.update_apply, chained p]

theorem wake_ready (here : q.place t = spot) (away : ∀ r, spot ≠ .ready r) (r : Nat) :
    (q.wake t p rest).members (.ready r) =
      if r = p then t :: q.members (.ready r) else q.members (.ready r) := by
  subst here
  have kept : (q.leave t rest).members (.ready r) = q.members (.ready r) :=
    Function.update_of_ne (away r).symm _ _
  by_cases level : r = p
  · subst level
    rw [if_pos rfl]
    exact Function.update_self _ _ _
  · rw [if_neg level]
    exact (Function.update_of_ne (by simpa using level) _ _).trans kept

theorem wake_running (rep : Rep slots k q) (here : q.place t = spot) (linked : spot ≠ .gone)
    (away : ∀ r, spot ≠ .ready r) : (q.wake t p rest).running = q.running := by
  subst here
  funext c
  exact if_neg (rep.listed.not_running away (rep.listed.ne_null t linked) c)

theorem wake_alive (here : q.place t = spot) (linked : spot ≠ .gone) (x : Nat) :
    (q.wake t p rest).place x = .gone ↔ q.place x = .gone := by
  subst here
  by_cases this : x = t
  · subst this
    simp [Queues.wake, Queues.enter, linked]
  · simp [Queues.wake, Queues.enter, Queues.leave, this]

theorem wake_moved (rep : Rep slots k q) (nodes : q.members spot = t :: rest)
    (chained : spot = .asleep ∨ ∃ s, spot = .waiting s) {popped : Shared Sem}
    (links : popped.nextTcb = k.nextTcb ∧ popped.prevTcb = k.prevTcb)
    (fields : popped.priority = k.priority ∧ popped.state = k.state)
    (counts : popped.activePriorityCount = k.activePriorityCount ∧
      popped.runningPriorityCount = k.runningPriorityCount)
    (root : rootOf popped spot = k.nextTcb t)
    (roots : ∀ other, other ≠ spot → rootOf popped other = rootOf k other) :
    Moved slots k (enqueueThread popped t) q (q.wake t (k.priority t) rest) := by
  have linked : spot ≠ .gone := by rcases chained with rfl | ⟨s, rfl⟩ <;> simp
  have away (r : Nat) : spot ≠ .ready r := by rcases chained with rfl | ⟨s, rfl⟩ <;> simp
  have here : q.place t = spot := (rep.listed.members t spot linked).mp (by simp [nodes])
  have live : q.place t ≠ .gone := by rwa [here]
  have bounded := (rep.stated t).bounded live
  have left := pop_rep rep nodes chained links fields counts root roots
  have entered := enqueue_rep left (t := t) (Function.update_self _ _ _)
    (rep.listed.inside t live) (by rwa [fields.1])
  have level : (q.leave t rest).members (.ready (k.priority t)) = q.members (.ready (k.priority t)) :=
    Function.update_of_ne (by rw [here]; exact (away _).symm) _ _
  rw [fields.1, level] at entered
  constructor
  · exact entered
  · exact wake_alive here linked
  · intro x gone
    have other : x ≠ t := by
      rintro rfl
      exact live gone
    rw [enqueueThread_state, Function.update_of_ne other, fields.2]
  · rw [enqueueThread_priority, fields.1]
  · rw [(enqueueThread_counts popped t).1, fields.1, counts.1]
    exact Function.update_of_ne bounded.ne' _ _

omit [DecidableEq Sem] in
theorem enqueue_rests (rests : RootsRest k q) {popped : Shared Sem} (state : popped.state = k.state)
    (fresh : ∀ r, t ∉ q.members (.ready r))
    (members : ∀ r, q'.members (.ready r) = q.members (.ready r) ∨
      q'.members (.ready r) = t :: q.members (.ready r)) :
    RootsRest (enqueueThread popped t) q' := by
  intro r root others nodes several
  rcases members r with same | pushed
  · rw [same] at nodes
    have other : root ≠ t := by
      rintro rfl
      exact fresh r (by simp [nodes])
    rw [enqueueThread_state, Function.update_of_ne other, state]
    exact rests r root others nodes several
  · rw [pushed] at nodes
    obtain ⟨rfl, _⟩ := List.cons.inj nodes
    simp

theorem wake_rests (rep : Rep slots k q) (rests : RootsRest k q) (here : q.place t = spot)
    (away : ∀ r, spot ≠ .ready r) {popped : Shared Sem} (state : popped.state = k.state) :
    RootsRest (enqueueThread popped t) (q.wake t p rest) := by
  apply enqueue_rests rests state
  · intro r member
    rw [rep.listed.members t _ (by simp), here] at member
    exact away r member
  · intro r
    rw [wake_ready here away]
    split
    · exact Or.inr rfl
    · exact Or.inl rfl

end Wake

theorem schedUnblock_moved {k : Kernel Sem} (rep : Rep slots k.toShared q) (c : Core) {sem : Sem}
    {t : Nat} {rest : List Nat} (nodes : q.members (.waiting sem) = t :: rest) :
    schedUnblock k c sem =
        some ({ k with toShared := unblockShared k.toShared sem },
          decide (k.priority (k.runPt c) ≤ k.priority t)) ∧
      Moved slots k.toShared (unblockShared k.toShared sem) q (q.wake t (k.priority t) rest) := by
  have chain := rep.joined (.waiting sem)
  rw [nodes] at chain
  obtain ⟨root, present, _⟩ : k.bthreadsRoot sem = t ∧ t ≠ null ∧ _ := chain
  have moved : Moved slots k.toShared (unblockShared k.toShared sem) q
      (q.wake t (k.priority t) rest) := by
    rw [unblockShared, root]
    refine wake_moved rep nodes (Or.inr ⟨sem, rfl⟩) ⟨rfl, rfl⟩ ⟨rfl, rfl⟩ ⟨rfl, rfl⟩ ?_ ?_
    · exact Function.update_self _ _ _
    · intro other apart
      cases other with
      | gone => rfl
      | ready p => rfl
      | asleep => rfl
      | waiting s => exact Function.update_of_ne (fun same => apart (by rw [same])) _ _
  refine ⟨?_, moved⟩
  rw [schedUnblock, root, if_neg present]
  simp [moved.priority]

omit [DecidableEq Sem] in
theorem waiters_cons (rep : Rep slots k q) {sem : Sem} (some_waits : k.bthreadsRoot sem ≠ null) :
    ∃ t rest, q.members (.waiting sem) = t :: rest ∧ k.bthreadsRoot sem = t ∧
      q.place t = .waiting sem := by
  have chain : Chain null k.nextTcb (k.bthreadsRoot sem) (q.members (.waiting sem)) :=
    rep.joined (.waiting sem)
  cases nodes : q.members (.waiting sem) with
  | nil => exact absurd (chain.null_iff.mpr nodes) some_waits
  | cons t rest =>
      rw [nodes] at chain
      exact ⟨t, rest, rfl, chain.1, (rep.listed.members t _ (by simp)).mp (by simp [nodes])⟩

omit [DecidableEq Sem] in
theorem unsleep_local (k : Kernel Sem) (first second : Nat) :
    (unsleep k first second).runPt = k.runPt ∧ (unsleep k first second).nextRunPt = k.nextRunPt ∧
      (unsleep k first second).idleThread = k.idleThread ∧
      (unsleep k first second).pendSv = k.pendSv ∧ (unsleep k first second).stack = k.stack := by
  by_cases empty : k.sleepScheduleRoot = null <;> simp [unsleep, empty]

theorem unsleep_moved {k : Kernel Sem} (rep : Rep slots k.toShared q) (first second : Nat) :
    q.members .asleep = [] ∧ unsleep k first second = k ∨
      ∃ t rest, q.members .asleep = t :: rest ∧ q.place t = .asleep ∧
        (unsleep k first second).toShared =
          enqueueThread { k.toShared with sleepScheduleRoot := k.nextTcb t } t ∧
        Moved slots k.toShared (unsleep k first second).toShared q
          (q.wake t (k.priority t) rest) := by
  have chain : Chain null k.nextTcb k.sleepScheduleRoot (q.members .asleep) := rep.joined .asleep
  cases nodes : q.members .asleep with
  | nil =>
      rw [nodes] at chain
      exact Or.inl ⟨rfl, by rw [unsleep, if_pos (show k.sleepScheduleRoot = null from chain)]⟩
  | cons t rest =>
      rw [nodes] at chain
      obtain ⟨root, present, _⟩ := chain
      have shared : (unsleep k first second).toShared =
          enqueueThread { k.toShared with sleepScheduleRoot := k.nextTcb t } t := by
        rw [unsleep, root, if_neg present]
      refine Or.inr ⟨t, rest, rfl, (rep.listed.members t _ (by simp)).mp (by simp [nodes]), shared, ?_⟩
      rw [shared]
      refine wake_moved rep nodes (Or.inl rfl) ⟨rfl, rfl⟩ ⟨rfl, rfl⟩ ⟨rfl, rfl⟩ rfl ?_
      intro other apart
      cases other with
      | gone => rfl
      | ready p => rfl
      | asleep => exact absurd rfl apart
      | waiting s => rfl

/-! A running thread leaves its ring -/

def Queues.drop (q : Queues Sem) (t p : Nat) : Queues Sem :=
  q.leave t (unlink t (q.members (.ready p)))

section Drop
variable {t p : Nat}

theorem drop_members (here : q.place t = .ready p) (other : Place Sem) (apart : other ≠ .ready p) :
    (q.drop t p).members other = q.members other :=
  Function.update_of_ne (by rwa [here]) _ _

theorem drop_moved (rep : Rep slots k q) (here : q.place t = .ready (k.priority t))
    (runs : k.state t = .running) (target : ThreadState) :
    Rep slots { dequeueThread k t with state := Function.update (dequeueThread k t).state t target }
      (q.drop t (k.priority t)) := by
  apply kept_rep (dequeue_rep rep here runs)
  · intro x live
    have other : x ≠ t := by
      rintro rfl
      exact live (Function.update_self _ _ _)
    exact ⟨rfl, rfl, rfl, Function.update_of_ne other _ _⟩
  · exact fun _ _ => ⟨rfl, rfl⟩
  · intro spot
    cases spot <;> rfl

end Drop

/-! A running thread starts to wait -/

def Queues.park (q : Queues Sem) (t p : Nat) (spot : Place Sem) (key : Nat → Nat) : Queues Sem :=
  (q.drop t p).enter t spot (insertByKey key t (q.members spot))

def parkedState : Place Sem → ThreadState
  | .gone => .dead
  | .ready _ => .active
  | .asleep => .sleeping
  | .waiting _ => .blocked

section Park
variable {t p : Nat} {spot : Place Sem} {key : Nat → Nat}

theorem park_members (here : q.place t = .ready p) (other : Place Sem)
    (away : ∀ r, other ≠ .ready r) :
    (q.park t p spot key).members other =
      if other = spot then insertByKey key t (q.members spot) else q.members other := by
  by_cases same : other = spot
  · subst same
    rw [if_pos rfl]
    exact Function.update_self _ _ _
  · rw [if_neg same]
    exact (Function.update_of_ne same _ _).trans (drop_members here other (away p))

theorem park_alive (live : q.place t ≠ .gone) (linked : spot ≠ .gone) (x : Nat) :
    (q.park t p spot key).place x = .gone ↔ q.place x = .gone := by
  by_cases this : x = t
  · subst this
    simp [Queues.park, Queues.enter, linked, live]
  · simp [Queues.park, Queues.drop, Queues.enter, Queues.leave, this]

theorem park_moved (key : Nat → Nat) (rep : Rep slots k q)
    (here : q.place t = .ready (k.priority t))
    (runs : k.state t = .running) (chained : spot = .asleep ∨ ∃ s, spot = .waiting s) :
    ∃ linked head,
      insertThread key (dequeueThread k t).nextTcb (rootOf (dequeueThread k t) spot) t =
        some (linked, head) ∧
      ∀ k', k'.nextTcb = linked ∧ k'.prevTcb = (dequeueThread k t).prevTcb →
        k'.priority = k.priority ∧ k'.state = Function.update k.state t (parkedState spot) →
        k'.activePriorityCount = k.activePriorityCount ∧
          k'.runningPriorityCount = (dequeueThread k t).runningPriorityCount →
        rootOf k' spot = head →
        (∀ other, other ≠ spot → rootOf k' other = rootOf (dequeueThread k t) other) →
        Moved slots k k' q (q.park t (k.priority t) spot key) := by
  have linked_spot : spot ≠ .gone := by rcases chained with rfl | ⟨s, rfl⟩ <;> simp
  have away (r : Nat) : spot ≠ .ready r := by rcases chained with rfl | ⟨s, rfl⟩ <;> simp
  have live : q.place t ≠ .gone := by simp [here]
  have bounded := (rep.stated t).bounded live
  have inside := rep.listed.inside t live
  -- first off the ring, then into the chain
  have left := dequeue_rep rep here runs
  have untouched := dequeueThread_untouched k t
  have gone : (q.drop t (k.priority t)).place t = .gone := Function.update_self _ _ _
  have kept : (q.drop t (k.priority t)).members spot = q.members spot :=
    drop_members here spot (away _)
  -- `dequeue_thread` clears the link that the chain reuses
  have loose : (dequeueThread k t).nextTcb t = null := unlinkThread_next _ t
  have chain : Chain null (dequeueThread k t).nextTcb (rootOf (dequeueThread k t) spot)
      (q.members spot) := by
    rw [← kept]
    rcases chained with rfl | ⟨s, rfl⟩
    · exact left.joined .asleep
    · exact left.joined (.waiting s)
  have fresh : t ∉ q.members spot := by
    rw [rep.listed.members t spot linked_spot, here]
    exact (away _).symm
  obtain ⟨linked, head, inserted, _⟩ := insertThread_spec key chain fresh
    (slots.ne_null inside) (rep.listed.distinct spot) loose (rep.listed.length_le spot linked_spot)
  refine ⟨linked, head, inserted, ?_⟩
  intro k' links fields counts root roots
  have entered : Rep slots k' ((q.drop t (k.priority t)).enter t spot
      (insertByKey key t ((q.drop t (k.priority t)).members spot))) := by
    apply insert_rep left gone inside loose chained linked head inserted links _ _ _ root roots
    · have small : k'.priority t < priorityLvlCnt := by rwa [fields.1]
      have parked : k'.state t = parkedState spot := by rw [fields.2, Function.update_self]
      rcases chained with rfl | ⟨s, rfl⟩
      · exact ⟨small, parked⟩
      · exact ⟨small, parked⟩
    · refine ⟨by rw [fields.1, untouched.priority], fun x other => ?_⟩
      rw [fields.2, Function.update_of_ne other, untouched.state]
    · exact ⟨by rw [counts.1, untouched.active], counts.2⟩
  rw [kept] at entered
  constructor
  · exact entered
  · exact park_alive live linked_spot
  · intro x x_gone
    have other : x ≠ t := by
      rintro rfl
      exact live x_gone
    rw [fields.2, Function.update_of_ne other]
  · exact fields.1
  · rw [counts.1]

end Park

theorem schedBlock_moved {k : Kernel Sem} {c : Core} (rep : Rep slots k.toShared q)
    (here : q.place (k.runPt c) = .ready (k.priority (k.runPt c)))
    (runs : k.state (k.runPt c) = .running) (sem : Sem) :
    ∃ shared, schedBlock k c sem = some { k with toShared := shared } ∧
      shared.resumeTick = k.resumeTick ∧
      Moved slots k.toShared shared q
        (q.park (k.runPt c) (k.priority (k.runPt c)) (.waiting sem) k.priority) := by
  have untouched := dequeueThread_untouched k.toShared (k.runPt c)
  obtain ⟨linked, head, inserted, moved⟩ := park_moved k.priority rep here runs
    (Or.inr ⟨sem, rfl⟩)
  simp only [rootOf] at inserted
  let shared : Shared Sem := { dequeueThread k.toShared (k.runPt c) with
    state := Function.update (dequeueThread k.toShared (k.runPt c)).state (k.runPt c) .blocked
    nextTcb := linked
    bthreadsRoot := Function.update (dequeueThread k.toShared (k.runPt c)).bthreadsRoot sem head }
  have result : schedBlock k c sem = some { k with toShared := shared } := by
    rw [← untouched.priority] at inserted
    rw [schedBlock, inserted]
    rfl
  refine ⟨shared, result, untouched.resumeTick, moved shared ⟨rfl, rfl⟩ ⟨untouched.priority, ?_⟩
    ⟨untouched.active, rfl⟩ (Function.update_self _ _ _) ?_⟩
  · simp only [shared, untouched.state]
    rfl
  · intro other apart
    cases other with
    | gone => rfl
    | ready p => rfl
    | asleep => rfl
    | waiting s => exact Function.update_of_ne (fun same => apart (by rw [same])) _ _

theorem sleep_moved {k : Kernel Sem} {c : Core} (rep : Rep slots k.toShared q)
    (here : q.place (k.runPt c) = .ready (k.priority (k.runPt c)))
    (runs : k.state (k.runPt c) = .running) (now sleepTime : Nat) :
    ∃ shared alarm, sleep k c now sleepTime =
        some { k with toShared := shared, alarm0 := alarm } ∧
      shared.resumeTick =
        Function.update k.resumeTick (k.runPt c) (tickAfter now sleepTime) ∧
      Moved slots k.toShared shared q
        (q.park (k.runPt c) (k.priority (k.runPt c)) .asleep shared.resumeTick) := by
  let ticked : Shared Sem := { k.toShared with
    resumeTick := Function.update k.resumeTick (k.runPt c) (tickAfter now sleepTime) }
  have ticked_rep : Rep slots ticked q :=
    kept_rep rep (fun _ _ => ⟨rfl, rfl, rfl, rfl⟩) (fun _ _ => ⟨rfl, rfl⟩)
      (fun spot => by cases spot <;> rfl)
  have untouched := dequeueThread_untouched ticked (k.runPt c)
  obtain ⟨linked, head, inserted, moved⟩ := park_moved ticked.resumeTick ticked_rep here
    runs (Or.inl rfl)
  simp only [rootOf] at inserted
  let shared : Shared Sem := { dequeueThread ticked (k.runPt c) with
    state := Function.update (dequeueThread ticked (k.runPt c)).state (k.runPt c) .sleeping
    nextTcb := linked
    sleepScheduleRoot := head }
  have result : sleep k c now sleepTime = some { k with
      toShared := shared
      alarm0 := if head = k.runPt c then tickAfter now sleepTime else k.alarm0 } := by
    rw [← untouched.resumeTick] at inserted
    rw [sleep, inserted]
    rfl
  have ticks : shared.resumeTick =
      Function.update k.resumeTick (k.runPt c) (tickAfter now sleepTime) := untouched.resumeTick
  have parked := moved shared ⟨rfl, rfl⟩ ⟨untouched.priority, by
      simp only [shared, untouched.state]
      rfl⟩ ⟨untouched.active, rfl⟩ rfl (by
      intro other apart
      cases other with
      | gone => rfl
      | ready p => rfl
      | asleep => exact absurd rfl apart
      | waiting s => rfl)
  refine ⟨shared, _, result, ticks, ?_⟩
  rw [ticks]
  exact ⟨parked.rep, parked.alive, parked.unlinked, parked.priority, parked.idleLevel⟩

/-! A new thread -/

theorem addThread_enters {k : Kernel Sem} (rep : Rep slots k.toShared q) {newtcb : Nat}
    (gone : q.place newtcb = .gone) (inside : newtcb ∈ slots.addresses) {priority : Nat}
    (bounded : priority < priorityLvlCnt) (stack stackSize : Nat) :
    Rep slots (addThread k newtcb stack stackSize priority).toShared
      (q.enter newtcb (.ready priority) (newtcb :: q.members (.ready priority))) := by
  have named : Rep slots { k.toShared with
      priority := Function.update k.priority newtcb priority } q := by
    apply kept_rep rep
    · intro x live
      have other : x ≠ newtcb := by
        rintro rfl
        exact live gone
      exact ⟨rfl, rfl, Function.update_of_ne other _ _, rfl⟩
    · exact fun _ _ => ⟨rfl, rfl⟩
    · intro spot
      cases spot <;> rfl
  have entered := enqueue_rep named gone inside (by simpa using bounded)
  simp only [Function.update_self] at entered
  exact entered

theorem addThread_rests {k : Kernel Sem} (rep : Rep slots k.toShared q)
    (rests : RootsRest k.toShared q) {newtcb : Nat} (gone : q.place newtcb = .gone)
    (stack stackSize priority : Nat) :
    RootsRest (addThread k newtcb stack stackSize priority).toShared
      (q.enter newtcb (.ready priority) (newtcb :: q.members (.ready priority))) := by
  refine enqueue_rests rests rfl ?_ ?_
  · intro r member
    rw [rep.listed.members newtcb _ (by simp), gone] at member
    exact nomatch member
  · intro r
    by_cases level : r = priority
    · subst level
      exact Or.inr (Function.update_self _ _ _)
    · exact Or.inl (Function.update_of_ne (by simpa using level) _ _)

end MulticoreRtos.Scheduler
