import MulticoreRtos.PeriodicAlarm

/-!
The ring of periodic tasks over any sequence of calls. `schedule_background` calls
through the root, so the first call has to be one of `add_periodic_task`. The due
times and periods are whatever the callers and the clock make of them: nothing
here depends on their order.
-/

namespace MulticoreRtos.PeriodicRing

open LinkedList PeriodicQueue PeriodicAlarm
open Heap (null)

variable {Task : Type} {b : Background Task} {nodes : List Nat}

/-- `bgthread` is the answer of `malloc` and `now` the clock. -/
inductive Call (Task : Type) where
  | addPeriodicTask (bgthread : Nat) (task : Task) (period now : Nat)
  | scheduleBackground

def perform (fuel : Nat) (b : Background Task) : Call Task → Option (Background Task)
  | .addPeriodicTask bgthread task period now =>
      (addPeriodicTask fuel b bgthread task period now).map (·.1)
  | .scheduleBackground => (scheduleBackground fuel b).map (·.2)

def performAll (fuel : Nat) : List (Call Task) → Background Task → Option (Background Task)
  | [], b => some b
  | call :: rest, b => (perform fuel b call).bind (performAll fuel rest)

/-- No `schedule_background` comes before the first `add_periodic_task`, which is
the first to write `TIMER_ALARM1`. -/
def TaskFirst : List (Call Task) → Prop
  | .scheduleBackground :: _ => False
  | _ => True

def added : List (Call Task) → List Nat
  | [] => []
  | .addPeriodicTask bgthread _ _ _ :: rest => bgthread :: added rest
  | .scheduleBackground :: rest => added rest

structure HoldsAll (b : Background Task) (tasks : List Nat) : Prop where
  ring : ∃ nodes, nodes.Perm tasks ∧ nodes.Nodup ∧ Ring null b.next b.prev b.root nodes
  reached : ∀ t, Met null b.next b.root t ↔ t ∈ tasks
  inverse : ∀ t ∈ tasks, b.prev (b.next t) = t ∧ b.next (b.prev t) = t
  root : tasks ≠ [] → b.root ∈ tasks

theorem Cycle.holds {tasks : List Nat} (cycle : Cycle b nodes) (same : nodes.Perm tasks) :
    HoldsAll b tasks := by
  refine ⟨⟨nodes, same, cycle.distinct, cycle.ring⟩, ?_, ?_, ?_⟩
  · intro t
    rw [cycle.ring.met_iff cycle.present, same.mem_iff]
  · intro t member
    exact cycle.ring.inverse (same.mem_iff.mpr member)
  · intro some_task
    rw [← same.mem_iff]
    cases nodes with
    | nil => exact absurd same.nil_eq.symm some_task
    | cons root rest => simp [cycle.ring.1]

theorem add_links {fuel bgthread : Nat} (cycle : Cycle b nodes) (fresh : bgthread ∉ nodes)
    (present : bgthread ≠ null) (enough : nodes.length ≤ fuel) (task : Task) (period now : Nat) :
    ∃ after nodes', addPeriodicTask fuel b bgthread task period now = some (after, none) ∧
      nodes'.Perm (bgthread :: nodes) ∧ Cycle after nodes' := by
  have there : (fillIn b bgthread task period now).root = b.root := rfl
  rw [addPeriodicTask, if_neg present]
  cases nodes with
  | nil =>
      have empty : b.root = null := cycle.ring
      exact ⟨startQueue (fillIn b bgthread task period now) bgthread, [bgthread], if_pos empty,
        .refl _, (Queue.start _ present).cycle⟩
  | cons root rest =>
      obtain rfl : b.root = root := cycle.ring.1
      simp only [there, if_neg cycle.ring.2.1]
      by_cases first : (fillIn b bgthread task period now).schedTime bgthread <
          (fillIn b bgthread task period now).schedTime b.root
      · -- in front of the root is behind the last task
        let armed : Background Task :=
          { fillIn b bgthread task period now with
            alarm1 := (fillIn b bgthread task period now).schedTime bgthread }
        have behind : Cycle armed (b.root :: rest ++ []) := by
          rw [List.append_nil]
          exact ⟨cycle.ring, cycle.distinct, cycle.present⟩
        exact ⟨_, _, if_pos first, List.perm_append_singleton _ _,
          behind.link (by simpa using fresh) present⟩
      · obtain ⟨before, after, rfl, point, _⟩ :=
          insertionPoint_spec (fillIn b bgthread task period now) bgthread rest fuel b.root
            cycle.ring.2.2 (List.nodup_cons.mp cycle.distinct).1 enough
        have filled : Cycle (fillIn b bgthread task period now) (b.root :: before ++ after) :=
          ⟨cycle.ring, cycle.distinct, cycle.present⟩
        refine ⟨_, _, ?_, List.perm_middle, filled.link fresh present⟩
        rw [if_neg first]
        exact congrArg (Option.map _) point

theorem schedule_keeps {fuel : Nat} (cycle : Cycle b nodes) (occupied : nodes ≠ [])
    (enough : nodes.length ≤ fuel) :
    ∃ after nodes', scheduleBackground fuel b = some (b.func b.root, after) ∧
      nodes'.Perm nodes ∧ Cycle after nodes' := by
  obtain ⟨root, rest, rfl⟩ := List.exists_cons_of_ne_nil occupied
  obtain ⟨after, passed, behind, called, rfl, requeued⟩ :=
    call_requeues cycle (Nat.le_of_succ_le enough)
  obtain rfl : b.root = root := cycle.ring.1
  exact ⟨after, passed ++ b.root :: behind, called, List.perm_middle, requeued.cycle⟩

def Good (b : Background Task) (tasks : List Nat) : Prop :=
  ∃ nodes, nodes.Perm tasks ∧ Cycle b nodes

theorem perform_good {fuel : Nat} {tasks : List Nat} (good : Good b tasks) (call : Call Task)
    (possible : tasks ≠ [] ∨ TaskFirst [call])
    (allocated : ∀ t ∈ added [call], t ≠ null ∧ t ∉ tasks) (enough : tasks.length ≤ fuel) :
    added [call] ++ tasks ≠ [] ∧
      ∃ after, perform fuel b call = some after ∧ Good after (added [call] ++ tasks) := by
  obtain ⟨nodes, same, cycle⟩ := good
  cases call with
  | addPeriodicTask bgthread task period now =>
      obtain ⟨present, fresh⟩ := allocated bgthread List.mem_cons_self
      obtain ⟨after, nodes', called, linked, cycle'⟩ :=
        add_links cycle (fun member => fresh (same.mem_iff.mp member)) present
          (same.length_eq ▸ enough) task period now
      exact ⟨List.cons_ne_nil _ _, after, by rw [perform, called]; rfl, nodes',
        linked.trans (same.cons bgthread), cycle'⟩
  | scheduleBackground =>
      have some_task : tasks ≠ [] := possible.resolve_right id
      have occupied : nodes ≠ [] := by
        rintro rfl
        exact some_task same.nil_eq.symm
      obtain ⟨after, nodes', called, kept, cycle'⟩ :=
        schedule_keeps cycle occupied (same.length_eq ▸ enough)
      exact ⟨some_task, after, by rw [perform, called]; rfl, nodes', kept.trans same, cycle'⟩

theorem added_cons (call : Call Task) (rest : List (Call Task)) :
    added (call :: rest) = added [call] ++ added rest := by
  cases call with
  | addPeriodicTask => rfl
  | scheduleBackground => rfl

theorem performAll_good {fuel : Nat} (calls : List (Call Task)) :
    ∀ {b : Background Task} {tasks : List Nat}, Good b tasks → tasks ≠ [] ∨ TaskFirst calls →
      (∀ t ∈ added calls, t ≠ null ∧ t ∉ tasks) → (added calls).Nodup →
      (added calls).length + tasks.length ≤ fuel →
      ∃ after tasks', performAll fuel calls b = some after ∧ tasks'.Perm (added calls ++ tasks) ∧
        Good after tasks' := by
  induction calls with
  | nil => exact fun good _ _ _ _ => ⟨_, _, rfl, .refl _, good⟩
  | cons call rest ih =>
      intro b tasks good possible allocated distinct enough
      rw [added_cons] at allocated distinct enough ⊢
      obtain ⟨_, rest_distinct, apart⟩ := List.nodup_append.mp distinct
      simp only [List.length_append] at enough
      have so_far : tasks.length ≤ fuel := by omega
      have first : TaskFirst (call :: rest) → TaskFirst [call] := by
        cases call with
        | addPeriodicTask => exact fun _ => trivial
        | scheduleBackground => exact id
      obtain ⟨some_task, between, stepped, good'⟩ := perform_good good call (possible.imp_right first)
        (fun t member => allocated t (List.mem_append_left _ member)) so_far
      have fresh : ∀ t ∈ added rest, t ≠ null ∧ t ∉ added [call] ++ tasks := by
        intro t member
        obtain ⟨present, outside⟩ := allocated t (List.mem_append_right _ member)
        refine ⟨present, fun inside => ?_⟩
        rcases List.mem_append.mp inside with now | before
        · exact apart t now t member rfl
        · exact outside before
      have room : (added rest).length + (added [call] ++ tasks).length ≤ fuel := by
        rw [List.length_append]
        omega
      obtain ⟨after, tasks', performed, same, kept⟩ :=
        ih good' (Or.inl some_task) fresh rest_distinct room
      refine ⟨after, tasks', by rw [performAll, stepped]; exact performed, same.trans ?_, kept⟩
      rw [← List.append_assoc]
      exact List.perm_append_comm.append_right tasks

/-- From an empty queue every sequence of calls that adds a task before it runs one
completes, and leaves each task that it added in the ring once. -/
theorem none_lost_or_duplicated {fuel : Nat} (empty : b.root = null) (calls : List (Call Task))
    (first : TaskFirst calls) (allocated : ∀ t ∈ added calls, t ≠ null)
    (distinct : (added calls).Nodup) (enough : (added calls).length ≤ fuel) :
    ∃ after, performAll fuel calls b = some after ∧ HoldsAll after (added calls) := by
  have good : Good b [] := ⟨[], .refl _, empty, List.nodup_nil, by simp⟩
  obtain ⟨after, tasks, performed, same, nodes, listed, cycle⟩ :=
    performAll_good calls good (Or.inr first)
      (fun t member => ⟨allocated t member, List.not_mem_nil⟩) distinct enough
  exact ⟨after, performed, Cycle.holds cycle (listed.trans (by simpa using same))⟩

/-- Two tasks, the second one due first, and three alarms. -/
theorem none_lost_two_tasks :
    ∃ after, performAll 2 [.addPeriodicTask 0x20 7 5 0, .scheduleBackground,
        .addPeriodicTask 0x40 8 1 500, .scheduleBackground, .scheduleBackground]
        noTasks = some after ∧ HoldsAll after [0x20, 0x40] :=
  none_lost_or_duplicated rfl _ trivial (by simp [added, null]) (by simp [added]) (by simp [added])

/-- With no task `schedule_background` calls through a null root. -/
theorem background_without_task :
    ¬ ∃ fuel after, performAll fuel [.scheduleBackground] (noTasks : Background Nat) = some after := by
  rintro ⟨fuel, after, performed⟩
  exact nomatch performed

end MulticoreRtos.PeriodicRing
