import MulticoreRtos.SectionCode

/-!
The `SCHEDULER` lock makes the sections atomic: two cores execute them load by load
and store by store, a PendSV switch of one falls anywhere into a section of the
other, and every run is one of whole sections.
-/

namespace MulticoreRtos.SectionAtomicity

open Scheduler Serialized Transition LinkedList
open Heap (null)
open ContextSwitch (Cores Current Frame Start SwitchesSafe)
open Atomicity (Action Apart Code Fine Related entering beginning finish whole)

variable {Sem : Type}

/-- The sections under `SCHEDULER`. `unsleep` has found a sleeper before it takes the lock. -/
inductive Locked (Sem : Type) where
  | schedule (cpu : Core) (times : Readings)
  | schedBlock (cpu : Core) (sem : Sem)
  | schedUnblock (cpu : Core) (sem : Sem)
  | sleep (cpu : Core) (now sleepTime : Nat)
  | unsleep (cpu : Core) (first second : Nat)

structure Switch where
  cpu : Core
  sp : Nat

def Locked.cpu : Locked Sem → Core
  | .schedule cpu _ => cpu
  | .schedBlock cpu _ => cpu
  | .schedUnblock cpu _ => cpu
  | .sleep cpu _ _ => cpu
  | .unsleep cpu _ _ => cpu

def Locked.section : Locked Sem → ContextSwitch.Section Sem
  | .schedule cpu times => .schedule cpu times
  | .schedBlock cpu sem => .schedBlock cpu sem
  | .schedUnblock cpu sem => .schedUnblock cpu sem
  | .sleep cpu now sleepTime => .sleep cpu now sleepTime
  | .unsleep _ first second => .unsleep first second

/-- `parking` is no memory of the kernel: it says where in its code the core is. -/
def Locked.leave : Locked Sem → Cores Sem → Cores Sem
  | .schedule cpu _, s => { s with parking := Function.update s.parking cpu false }
  | .schedBlock cpu _, s => { s with parking := Function.update s.parking cpu true }
  | .schedUnblock _ _, s => s
  | .sleep cpu _ _, s => { s with parking := Function.update s.parking cpu true }
  | .unsleep _ _ _, s => s

def look (c : Core) (s : Cores Sem) : SectionCode.View Sem := SectionCode.look c s.kernel

def write (c : Core) (s : Cores Sem) (v : SectionCode.View Sem) : Cores Sem :=
  { s with kernel := SectionCode.write c s.kernel v }

def switch (s : Cores Sem) (event : Switch) : Option (Cores Sem) :=
  if s.kernel.pendSv event.cpu then
    some { s with kernel := pendSvHandler s.kernel event.cpu event.sp }
  else none

variable [DecidableEq Sem]

def Locked.code : Locked Sem → SectionCode.Part Sem Unit
  | .schedule _ times => SectionCode.schedule times
  | .schedBlock _ sem => SectionCode.schedBlock sem
  | .schedUnblock _ sem => SectionCode.schedUnblock sem
  | .sleep _ now sleepTime => SectionCode.sleep now sleepTime
  | .unsleep _ first second => SectionCode.unsleep first second

def Tested (s : Cores Sem) : Locked Sem → Prop
  | .unsleep _ _ _ => s.kernel.sleepScheduleRoot ≠ null
  | _ => True

instance (s : Cores Sem) (part : Locked Sem) : Decidable (Tested s part) :=
  match part with
  | .unsleep _ _ _ => inferInstanceAs (Decidable (_ ≠ _))
  | .schedule _ _ | .schedBlock _ _ | .schedUnblock _ _ | .sleep _ _ _ =>
      inferInstanceAs (Decidable True)

def Enabled (s : Cores Sem) (part : Locked Sem) : Prop :=
  ContextSwitch.Enabled s part.section ∧ Tested s part

instance (s : Cores Sem) (part : Locked Sem) : Decidable (Enabled s part) :=
  inferInstanceAs (Decidable (_ ∧ _))

def system : Atomicity.System (Cores Sem) Core (SectionCode.View Sem) (Locked Sem) Switch where
  look := look
  write := write
  owner := Locked.cpu
  code := Locked.code
  enabled := Enabled
  leave := Locked.leave
  source := Switch.cpu
  event := switch

instance (s : Cores Sem) (part : Locked Sem) : Decidable (system.enabled s part) :=
  inferInstanceAs (Decidable (Enabled s part))

def Guard (s : Cores Sem) (part : Locked Sem) : Prop := ContextSwitch.Guard s part.section

instance (s : Cores Sem) (part : Locked Sem) : Decidable (Guard s part) :=
  inferInstanceAs (Decidable (ContextSwitch.Guard _ _))

/-! Nothing a section reaches is touched by the other core's switch -/

section Switches
variable {c d : Core} {k : Kernel Sem}

omit [DecidableEq Sem]

theorem look_switched (other : d ≠ c) (sp : Nat) :
    SectionCode.look c (pendSvHandler k d sp) = SectionCode.look c k := by
  simp [SectionCode.look, pendSvHandler, Function.update_of_ne other.symm]

theorem write_switched (other : d ≠ c) (sp : Nat) (v : SectionCode.View Sem) :
    pendSvHandler (SectionCode.write c k v) d sp =
      SectionCode.write c (pendSvHandler k d sp) v := by
  simp only [SectionCode.write, pendSvHandler, Function.update_of_ne other,
    Function.update_comm other]

theorem pendSv_written (other : d ≠ c) (v : SectionCode.View Sem) :
    (SectionCode.write c k v).pendSv d = k.pendSv d :=
  Function.update_of_ne other _ _

theorem leave_kernel (part : Locked Sem) (s : Cores Sem) : (part.leave s).kernel = s.kernel := by
  cases part <;> rfl

theorem leave_switched (part : Locked Sem) (s : Cores Sem) (k : Kernel Sem) :
    { part.leave s with kernel := k } = part.leave { s with kernel := k } := by
  cases part <;> rfl

end Switches

theorem system_apart : Apart (system : Atomicity.System (Cores Sem) Core _ _ _) := by
  constructor
  · exact fun c s v => SectionCode.look_write c s.kernel v
  · intro c s
    simp only [system, write, look, SectionCode.write_look]
  · intro c s first second
    simp only [system, write, SectionCode.write_write]
  · intro e c s s' other happened
    simp only [system, switch, Option.ite_none_right_eq_some, Option.some.injEq] at happened
    obtain ⟨_, rfl⟩ := happened
    exact look_switched other e.sp
  · intro e part s s' v other happened
    simp only [system, switch, Option.ite_none_right_eq_some, Option.some.injEq] at happened
    obtain ⟨pending, rfl⟩ := happened
    have other : e.cpu ≠ part.cpu := other
    have still : (part.leave (write part.cpu s v)).kernel.pendSv e.cpu = true := by
      rw [leave_kernel]
      exact (pendSv_written other v).trans pending
    simp only [system, switch, if_pos still]
    rw [leave_kernel, leave_switched]
    simp only [write, write_switched other]

/-! A section on its own is what the machine of sections does in one step -/

section Whole
variable {layout : Layout Sem} {s s' : Cores Sem} {q : Queues Sem}

theorem finish_eq (s : Cores Sem) (part : Locked Sem) (answer : Option (Kernel Sem))
    (ran : part.code.run (SectionCode.look part.cpu s.kernel) =
      answer.map fun k => ((), SectionCode.look part.cpu k))
    (within : ∀ k, answer = some k → SectionCode.Within part.cpu s.kernel k) :
    finish system s part part.code = answer.map fun k => part.leave { s with kernel := k } := by
  have code : finish system s part part.code =
      (part.code.run (SectionCode.look part.cpu s.kernel)).map fun (_, v) =>
        part.leave { s with kernel := SectionCode.write part.cpu s.kernel v } := rfl
  rw [code, ran, Option.map_map]
  cases found : answer with
  | none => rfl
  | some k =>
      have same : SectionCode.write part.cpu s.kernel (SectionCode.look part.cpu k) = k :=
        within k found
      simp only [Option.map_some, Function.comp_apply, same]

omit [DecidableEq Sem] in
theorem sleeper_apart {slots : Slots} (frame : Frame slots s q) {c : Core} (current : Current s c) :
    s.kernel.sleepScheduleRoot ≠ s.kernel.runPt c := by
  intro same
  have present : s.kernel.sleepScheduleRoot ≠ null := by
    rw [same]
    exact current.1.1
  have chain : Chain null s.kernel.nextTcb s.kernel.sleepScheduleRoot (q.members .asleep) :=
    frame.rep.joined .asleep
  cases nodes : q.members .asleep with
  | nil => exact present (chain.null_iff.mpr nodes)
  | cons t rest =>
      rw [nodes] at chain
      have sleeps : q.place t = .asleep := (frame.rep.listed.members t _ (by simp)).mp (by simp [nodes])
      rw [← chain.1, same, (frame.current current).2.2] at sleeps
      cases sleeps

theorem finish_perform {slots : Slots} (frame : Frame slots s q) {part : Locked Sem}
    (enabled : Enabled s part) (guarded : Guard s part) :
    finish system s part part.code = ContextSwitch.perform s part.section := by
  obtain ⟨here, tested⟩ := enabled
  cases part with
  | schedule cpu times =>
      exact (finish_eq s (.schedule cpu times) (Scheduler.schedule s.kernel cpu times)
        (SectionCode.schedule_run times cpu s.kernel)
        fun _ scheduled => SectionCode.schedule_within scheduled).trans rfl
  | schedBlock cpu sem =>
      exact (finish_eq s (.schedBlock cpu sem) (Scheduler.schedBlock s.kernel cpu sem)
        (SectionCode.schedBlock_run sem cpu s.kernel)
        fun _ blocked => SectionCode.schedBlock_within blocked).trans rfl
  | schedUnblock cpu sem =>
      have found : s.kernel.bthreadsRoot sem ≠ null := here.1.2
      have woken := finish_eq s (.schedUnblock cpu sem)
        (some { s.kernel with toShared := unblockShared s.kernel.toShared sem })
        (SectionCode.schedUnblock_run sem cpu s.kernel)
        (by rintro _ ⟨⟩; exact SectionCode.within_shared cpu s.kernel _ s.kernel.alarm0)
      rw [woken, Locked.section, ContextSwitch.perform, Scheduler.schedUnblock, if_neg found]
      rfl
  | sleep cpu now sleepTime =>
      exact (finish_eq s (.sleep cpu now sleepTime) (Scheduler.sleep s.kernel cpu now sleepTime)
        (SectionCode.sleep_run now sleepTime cpu s.kernel (sleeper_apart frame guarded))
        fun _ slept => SectionCode.sleep_within slept).trans rfl
  | unsleep cpu first second =>
      exact (finish_eq s (.unsleep cpu first second) (some (Scheduler.unsleep s.kernel first second))
        (SectionCode.unsleep_run first second cpu s.kernel tested)
        (by rintro _ ⟨⟩; exact SectionCode.unsleep_within s.kernel cpu first second)).trans rfl

theorem perform_completes {slots : Slots} (inv : ContextSwitch.Inv slots s q) {part : Locked Sem}
    (enabled : Enabled s part) (guarded : Guard s part) :
    ∃ after, ContextSwitch.perform s part.section = some after := by
  obtain ⟨here, _⟩ := enabled
  cases part with
  | schedule cpu times =>
      obtain ⟨k, _, answer, _⟩ := inv.schedule times here.1 guarded.1 guarded.2
      exact ⟨_, by rw [Locked.section, ContextSwitch.perform, answer, Option.map_some]⟩
  | schedBlock cpu sem =>
      obtain ⟨_, runs, ready⟩ := inv.frame.current guarded
      obtain ⟨_, answer, _⟩ := schedBlock_moved inv.rep ready runs sem
      exact ⟨_, by rw [Locked.section, ContextSwitch.perform, answer, Option.map_some]⟩
  | schedUnblock cpu sem =>
      obtain ⟨_, _, nodes, _⟩ := waiters_cons inv.rep here.1.2
      obtain ⟨answer, _⟩ := schedUnblock_moved inv.rep cpu nodes
      exact ⟨_, by rw [Locked.section, ContextSwitch.perform, answer, Option.map_some]⟩
  | sleep cpu now sleepTime =>
      obtain ⟨_, runs, ready⟩ := inv.frame.current guarded
      obtain ⟨_, _, answer, _⟩ := sleep_moved inv.rep ready runs now sleepTime
      exact ⟨_, by rw [Locked.section, ContextSwitch.perform, answer, Option.map_some]⟩
  | unsleep cpu first second => exact ⟨_, rfl⟩

theorem sections_inv (reached : Reaches ContextSwitch.step ContextSwitch.Guard (Start layout) s) :
    ∃ q, ContextSwitch.Inv layout.slots s q :=
  reached.invariant (fun s => ∃ q, ContextSwitch.Inv layout.slots s q)
    (fun _ start => ContextSwitch.start_inv start) <| by
      rintro before part after ⟨q, inv⟩ guarded stepped
      exact ContextSwitch.inv_step inv guarded stepped

theorem whole_reaches (reached : Reaches (whole system) (beginning Guard) (Start layout) s) :
    Reaches ContextSwitch.step ContextSwitch.Guard (Start layout) s := by
  induction reached with
  | start begun => exact .start begun
  | @next before after action _ allowed stepped ih =>
      obtain ⟨q, inv⟩ := sections_inv ih
      cases action with
      | inl part =>
          by_cases enabled : system.enabled before part
          · rw [whole, if_pos enabled] at stepped
            refine .next part.section ih allowed ?_
            rw [ContextSwitch.step, if_pos enabled.1, ← finish_perform inv.frame enabled allowed]
            exact stepped
          · rw [whole, if_neg enabled] at stepped
            cases stepped
      | inr event =>
          refine .next (.pendSv event.cpu event.sp) ih trivial ?_
          simp only [whole, system, switch, Option.ite_none_right_eq_some] at stepped
          rw [ContextSwitch.step, if_pos (show ContextSwitch.Enabled before (.pendSv _ _) from stepped.1)]
          exact stepped.2

theorem code_keeps (part : Locked Sem) : part.code.Keeps (·.runPt) := by
  cases part with
  | schedule cpu times => exact SectionCode.schedule_keeps times
  | schedBlock cpu sem => exact SectionCode.schedBlock_keeps sem
  | schedUnblock cpu sem => exact SectionCode.schedUnblock_keeps sem
  | sleep cpu now sleepTime => exact SectionCode.sleep_keeps now sleepTime
  | unsleep cpu first second => exact SectionCode.unsleep_keeps first second

end Whole

/-! Runs -/

section Runs
variable {layout : Layout Sem} {f f' : Fine (Cores Sem) (SectionCode.View Sem) (Locked Sem)}

def Begins (layout : Layout Sem) (f : Fine (Cores Sem) (SectionCode.View Sem) (Locked Sem)) : Prop :=
  Start layout f.memory ∧ f.inside = none

theorem runs_sections
    (reached : Reaches (Atomicity.step system) (entering Guard) (Begins layout) f) :
    ∃ s, Reaches ContextSwitch.step ContextSwitch.Guard (Start layout) s ∧ Related system f s := by
  obtain ⟨s, whole, related⟩ := Atomicity.runs_whole system_apart (by
    -- a section that may begin comes to its end
    intro s part reached guarded enabled
    obtain ⟨q, inv⟩ := sections_inv (whole_reaches reached)
    obtain ⟨after, performed⟩ := perform_completes inv enabled guarded
    exact ⟨after, (finish_perform inv.frame enabled guarded).trans performed⟩) reached
  exact ⟨s, whole_reaches whole, related⟩

/-- What the other core's section changes is not what a switch reads. -/
theorem switch_unchanged {s : Cores Sem} (related : Related system f s)
    (kept : ∀ part rest, f.inside = some (part, rest) → rest.Keeps (·.runPt)) {c : Core}
    (outside : Atomicity.Outside system f c) :
    s.kernel.pendSv c = f.memory.kernel.pendSv c ∧
      s.kernel.nextRunPt c = f.memory.kernel.nextRunPt c ∧
      s.kernel.idleThread c = f.memory.kernel.idleThread c ∧
      s.kernel.runPt = f.memory.kernel.runPt := by
  cases inside : f.inside with
  | none =>
      rw [Atomicity.related_free inside] at related
      subst related
      exact ⟨rfl, rfl, rfl, rfl⟩
  | some held =>
      obtain ⟨part, rest⟩ := held
      have other : c ≠ part.cpu := (outside part rest inside).symm
      rw [Atomicity.related_inside inside] at related
      obtain ⟨⟨_, v⟩, ended, rfl⟩ := Option.map_eq_some_iff.mp related
      have same : v.runPt = f.memory.kernel.runPt part.cpu := Code.run_keeps (kept part rest inside) ended
      simp only [system, leave_kernel, write, SectionCode.write, Function.update_of_ne other, same,
        Function.update_eq_self, and_self]

/-- Along every run of loads and stores, free lock or not: with the lock free, the memory is
what whole sections lead to; a core inside a section ends it on its own; and a switch is
never to a thread the other core has not left. -/
theorem sections_atomic
    (reached : Reaches (Atomicity.step system) (entering Guard) (Begins layout) f) :
    (f.inside = none →
      Reaches ContextSwitch.step ContextSwitch.Guard (Start layout) f.memory) ∧
    (∀ part rest, f.inside = some (part, rest) → ∃ count s,
      exec (Atomicity.step system) f
          (List.replicate count .next ++ [.leave] : List (Action (Locked Sem) Switch)) =
        some ⟨s, none⟩ ∧
      Reaches ContextSwitch.step ContextSwitch.Guard (Start layout) s) ∧
    ∀ event f', Atomicity.step system f (.event event) = some f' →
      f.memory.kernel.nextRunPt event.cpu ≠ f.memory.kernel.idleThread event.cpu →
      f.memory.kernel.nextRunPt event.cpu ≠ f.memory.kernel.runPt event.cpu.other := by
  obtain ⟨s, sections, related⟩ := runs_sections reached
  refine ⟨?_, ?_, ?_⟩
  · intro free
    rw [Atomicity.related_free free] at related
    rwa [related]
  · intro part rest inside
    obtain ⟨count, ended⟩ := Atomicity.ends_alone system_apart inside related
    exact ⟨count, s, ended, sections⟩
  · -- the section under way stores nothing that the switch of the other core reads
    intro event f' stepped busy
    obtain ⟨outside, _, switched, _⟩ := Atomicity.event_cases stepped
    simp only [system, switch, Option.ite_none_right_eq_some] at switched
    have outside : Atomicity.Outside system f event.cpu := outside
    obtain ⟨pending, next, idle, current⟩ := switch_unchanged related
      (fun _ _ => Atomicity.inside_keeps code_keeps (fun _ begun => begun.2) reached) outside
    obtain ⟨q, inv⟩ := sections_inv sections
    have safe := inv.switches_safe event.cpu (pending.trans switched.1)
    rw [next, idle, current] at safe
    exact safe busy

end Runs

/-! Core 1 blocks, and its switch falls into a section of core 0 -/

def alone (part : Locked Unit) (count : Nat) : List (Action (Locked Unit) Switch) :=
  .enter part :: List.replicate count .next

def betweenLoads : List (Action (Locked Unit) Switch) :=
  alone (.schedBlock .cpu1 ()) 19 ++ .leave :: alone (.schedule .cpu1 readings) 20 ++
    .leave :: alone (.schedule .cpu0 readings) 9

theorem sections_atomic_board :
    ∃ f : Fine (Cores Unit) (SectionCode.View Unit) (Locked Unit), f.inside.isSome ∧
      ∃ f', Atomicity.step system f (.event ⟨.cpu1, 0⟩) = some f' ∧
        f.memory.kernel.nextRunPt .cpu1 ≠ f.memory.kernel.runPt .cpu0 := by
  obtain ⟨m, booted, f, executed, inside, switches, busy, allowed⟩ :
      ∃ m ∈ exec (Serialized.step board) reset ContextSwitch.boot,
        ∃ f ∈ exec (Atomicity.step system)
            (⟨⟨m.kernel, fun _ => false⟩, none⟩ : Fine (Cores Unit) _ _) betweenLoads,
          f.inside.isSome ∧ (Atomicity.step system f (.event ⟨.cpu1, 0⟩)).isSome ∧
            f.memory.kernel.nextRunPt .cpu1 ≠ f.memory.kernel.idleThread .cpu1 ∧
            Allowed (Atomicity.step system) (entering Guard)
              (⟨⟨m.kernel, fun _ => false⟩, none⟩ : Fine (Cores Unit) _ _) betweenLoads := by
    decide +kernel
  have guarded : Allowed (Serialized.step board) (Serialized.Guard board) reset
      ContextSwitch.boot := by
    decide +kernel
  have start : Begins board ⟨⟨m.kernel, fun _ => false⟩, none⟩ :=
    ⟨⟨⟨m, exec_reaches ContextSwitch.boot (.start reset_powerOn) guarded booted, rfl⟩, rfl⟩, rfl⟩
  obtain ⟨f', switched⟩ := Option.isSome_iff_exists.mp switches
  have safe := (sections_atomic (exec_reaches betweenLoads (.start start) allowed executed)).2.2
  exact ⟨f, inside, f', switched, safe ⟨.cpu1, 0⟩ f' switched busy⟩

end MulticoreRtos.SectionAtomicity
