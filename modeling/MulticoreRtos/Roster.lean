import MulticoreRtos.LinkedList
import MulticoreRtos.Scheduler

/-!
What the scheduler is for, without links, counters and TCBs: lists of threads and
what each core runs. A dispatch serves the best level that has a thread the
other core does not run, and the level moves on behind the thread it gives.
-/

namespace MulticoreRtos.Scheduler

open LinkedList

/-- The lists are in the order of their turns. A core that is off or idle runs `none`. -/
structure Roster (Thread Sem : Type) where
  level : Thread → Nat
  tick : Thread → Nat
  ready : Nat → List Thread
  asleep : List Thread
  waiting : Sem → List Thread
  running : Core → Option Thread

/-- What can happen to a roster. `retire` is the end of a thread; its two blocks of
memory are given back under `lock`, for which others may wait. -/
inductive Move (Thread Sem : Type) where
  | stay
  | spawn (t : Thread) (level : Nat)
  | dispatch (c : Core)
  | block (c : Core) (s : Sem)
  | wake (s : Sem)
  | sleep (c : Core) (tick : Nat)
  | unsleep
  | retire (c : Core) (lock : Sem)

section Moves

variable {Thread Sem : Type}

def Roster.empty : Roster Thread Sem :=
  ⟨fun _ => 0, fun _ => 0, fun _ => [], [], fun _ => [], fun _ => none⟩

variable [DecidableEq Thread] (r : Roster Thread Sem) (c : Core)

def Roster.Free (t : Thread) : Prop := r.running c.other ≠ some t

instance (t : Thread) : Decidable (r.Free c t) := inferInstanceAs (Decidable (_ ≠ _))

def Roster.best : Option Nat :=
  (List.range priorityLvlCnt).find? fun p => ∃ t ∈ r.ready p, r.Free c t

/-- The next thread of a level, and the level behind it. A first thread that the
other core runs keeps its place, and the second one is given. -/
def Roster.turn : List Thread → Option (Thread × List Thread)
  | [] => none
  | first :: rest =>
      if r.Free c first then some (first, rest ++ [first])
      else rest.head?.map fun second => (second, first :: rest)

def Roster.dispatch : Roster Thread Sem :=
  match (r.best c).bind fun p => (r.turn c (r.ready p)).map fun given => (p, given) with
  | none => { r with running := Function.update r.running c none }
  | some (p, t, nodes) =>
      { r with
        ready := Function.update r.ready p nodes
        running := Function.update r.running c (some t) }

def Roster.join (t : Thread) : Roster Thread Sem :=
  { r with ready := Function.update r.ready (r.level t) (t :: r.ready (r.level t)) }

def Roster.leave (t : Thread) : Roster Thread Sem :=
  { r with
    ready := Function.update r.ready (r.level t) (unlink t (r.ready (r.level t)))
    running := Function.update r.running c none }

variable [DecidableEq Sem]

def Roster.wake (s : Sem) : Roster Thread Sem :=
  match r.waiting s with
  | [] => r
  | t :: rest => { r with waiting := Function.update r.waiting s rest }.join t

def Roster.unsleep : Roster Thread Sem :=
  match r.asleep with
  | [] => r
  | t :: rest => { r with asleep := rest }.join t

def Roster.apply : Roster Thread Sem → Move Thread Sem → Roster Thread Sem
  | r, .stay => r
  | r, .spawn t level => { r with level := Function.update r.level t level }.join t
  | r, .dispatch c => r.dispatch c
  | r, .block c s =>
      (r.running c).elim r fun t =>
        { r.leave c t with
          waiting := Function.update r.waiting s (insertByKey r.level t (r.waiting s)) }.dispatch c
  | r, .wake s => r.wake s
  | r, .sleep c tick =>
      (r.running c).elim r fun t =>
        { r.leave c t with
          tick := Function.update r.tick t tick
          asleep := insertByKey (Function.update r.tick t tick) t r.asleep }.dispatch c
  | r, .unsleep => r.unsleep
  | r, .retire c lock =>
      (r.running c).elim r fun t => (((r.leave c t).wake lock).wake lock).dispatch c

end Moves

end MulticoreRtos.Scheduler
