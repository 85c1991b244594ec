import MulticoreRtos.PendSv
import MulticoreRtos.Transition

/-!
Threads under any sequence of PendSV switches on the two cores. Between two
switches a thread that runs computes in its registers and writes in its own stack,
`schedule` chooses a next thread, and `add_thread` lays out a new one. `history`
keeps for every thread what it has to find when it is resumed.
-/

namespace MulticoreRtos.ThreadContexts

open Thumb PendSv Transition
open Scheduler (Core)

structure Stack where
  base : Nat
  size : Nat

def Stack.Contains (stack : Stack) (addr : Nat) : Prop :=
  stack.base ≤ addr ∧ addr < stack.base + stack.size

instance (stack : Stack) (addr : Nat) : Decidable (stack.Contains addr) :=
  inferInstanceAs (Decidable (_ ∧ _))

/-- The two arrays, and the stack of the thread of each TCB. All of them are
different objects of the program. -/
structure Layout where
  runPt : Nat
  nextRunPt : Nat
  stackOf : Nat → Option Stack
  fits : runPt + 8 ≤ 2 ^ 32 ∧ nextRunPt + 8 ≤ 2 ^ 32
  arrays_apart : ∀ core other, entryOf runPt core ≠ entryOf nextRunPt other
  arrays_memory : ∀ core, entryOf runPt core ≠ cpuid ∧ entryOf nextRunPt core ≠ cpuid
  arrays_outside : ∀ core tcb stack, stackOf tcb = some stack →
    ¬ stack.Contains (entryOf runPt core) ∧ ¬ stack.Contains (entryOf nextRunPt core)
  tcb_apart : ∀ core tcb stack, stackOf tcb = some stack →
    tcb ≠ entryOf runPt core ∧ tcb ≠ entryOf nextRunPt core ∧ tcb ≠ cpuid
  tcb_outside : ∀ tcb other stack own, stackOf tcb = some own → stackOf other = some stack →
    ¬ stack.Contains tcb
  stacks_aligned : ∀ tcb stack, stackOf tcb = some stack →
    stack.base % 4 = 0 ∧ stack.size % 4 = 0
  stacks_apart : ∀ tcb other own stack, stackOf tcb = some own → stackOf other = some stack →
    tcb ≠ other → ∀ addr, own.Contains addr → ¬ stack.Contains addr

inductive History where
  | running
  | created (task stop : Nat)
  | out (context : Context)

def History.isRunning : History → Bool
  | .running => true
  | _ => false

structure System where
  mem : Memory
  context : Core → Context
  history : Nat → Option History

inductive Action where
  | store (core : Core) (addr value : Nat)
  | compute (core : Core) (context : Context)
  | schedule (core : Core) (next : Nat)
  | addThread (tcb task : Nat)
  | pendSv (core : Core)

variable (L : Layout)

def runningOn (s : System) (core : Core) : Option (Nat × Stack) :=
  let tcb := s.mem (entryOf L.runPt core)
  if (s.history tcb).any History.isRunning then (L.stackOf tcb).map fun stack => (tcb, stack)
  else none

/-- The words that `add_thread` writes: PSR, PC, the overflow marker and `sp`. -/
def layOut (mem : Memory) (stack : Stack) (tcb task : Nat) : Memory :=
  Function.update (Function.update (Function.update (Function.update mem
    (stack.base + stack.size - 4) 0x01000000)
    (stack.base + stack.size - 8) task)
    stack.base 0xDEADBEEF)
    tcb (stack.base + stack.size - 64)

def leaving (s : System) (core : Core) : Nat → Option History :=
  Function.update s.history (s.mem (entryOf L.runPt core)) (some (.out (s.context core)))

def rounded (sp : Nat) : Nat := sp - sp % 8

/-- `below` is where the free bytes under a stack pointer are counted from. -/
def step (below : Nat → Nat) (s : System) : Action → Option System
  | .store core addr value =>
      match runningOn L s core with
      | some (_, stack) =>
          if stack.Contains addr ∧ addr % 4 = 0 then some { s with mem := Function.update s.mem addr value }
          else none
      | none => none
  | .compute core context =>
      if context.reg .sp % 4 = 0 ∧ context.xpsr / 2 ^ 9 % 2 = 0 then
        some { s with context := Function.update s.context core context }
      else none
  | .schedule core next =>
      some { s with mem := Function.update s.mem (entryOf L.nextRunPt core) next }
  | .addThread tcb task =>
      match s.history tcb, L.stackOf tcb with
      | none, some stack =>
          if 64 ≤ stack.size ∧ stack.size % 8 = 0 then
            some {
              mem := layOut s.mem stack tcb task
              context := s.context
              history := Function.update s.history tcb
                (some (.created task (stack.base + stack.size))) }
          else none
      | _, _ => none
  | .pendSv core =>
      match runningOn L s core with
      | some (_, stack) =>
          let sp := (s.context core).reg .sp
          let next := s.mem (entryOf L.nextRunPt core)
          -- the next thread has been switched out or is new
          if stack.base + 64 ≤ below sp ∧ sp ≤ stack.base + stack.size ∧
              (leaving L s core next).any (fun h => !h.isRunning) then
            let after := pendSv L.runPt L.nextRunPt core ⟨s.context core, s.mem, false⟩
            some {
              mem := after.mem
              context := Function.update s.context core after.context
              history := Function.update (leaving L s core) next (some .running) }
          else none
      | none => none

structure Launched (s : System) : Prop where
  wellFormed : ∀ core, (s.context core).WellFormed
  running : ∀ tcb h, s.history tcb = some h → h = .running ∧ (L.stackOf tcb).isSome

def Meets : History → Context → Prop
  | .running, _ => False
  | .created task stop, c => c.reg .pc = task ∧ c.reg .sp = stop ∧ c.xpsr = 0x01000000
  | .out context, c => c = context

/-- The thread that PendSV switches to has all the registers that it was last
switched out with, or starts at its task with an empty stack. -/
def Resumed (s : System) (core : Core) (s' : System) : Prop :=
  ∃ h, leaving L s core (s.mem (entryOf L.nextRunPt core)) = some h ∧ Meets h (s'.context core)

/-! What a saved thread relies on -/

variable {L} {s s' : System} {mem mem' : Memory} {tcb : Nat} {stack : Stack} {h : History}

/-- The 16 words at the saved SP of a thread are in its stack and are what it has
to find. -/
structure Saved (mem : Memory) (tcb : Nat) (stack : Stack) (h : History) : Prop where
  inside : stack.base ≤ mem tcb ∧ mem tcb + 64 ≤ stack.base + stack.size
  aligned : mem tcb % 4 = 0
  meets : Meets h (restored mem (mem tcb))

structure Good (L : Layout) (s : System) : Prop where
  wellFormed : ∀ core, (s.context core).WellFormed
  placed : ∀ tcb h, s.history tcb = some h → (L.stackOf tcb).isSome
  saved : ∀ tcb h stack, s.history tcb = some h → h.isRunning = false →
    L.stackOf tcb = some stack → Saved s.mem tcb stack h

theorem Saved.frame (saved : Saved mem tcb stack h) (same_sp : mem' tcb = mem tcb)
    (same_stack : ∀ addr, stack.Contains addr → mem' addr = mem addr) :
    Saved mem' tcb stack h := by
  obtain ⟨inside, aligned, meets⟩ := saved
  have same : restored mem' (mem tcb) = restored mem (mem tcb) := by
    refine restored_congr fun i low => same_stack _ ?_
    constructor
    · omega
    · omega
  exact ⟨by rw [same_sp]; exact inside, by rw [same_sp]; exact aligned,
    by rw [same_sp, same]; exact meets⟩

theorem runningOn_spec {core : Core} (there : runningOn L s core = some (tcb, stack)) :
    s.mem (entryOf L.runPt core) = tcb ∧ s.history tcb = some .running ∧
      L.stackOf tcb = some stack := by
  simp only [runningOn] at there
  split at there
  · rename_i runs
    obtain ⟨found, placed, same⟩ := Option.map_eq_some_iff.mp there
    obtain ⟨rfl, rfl⟩ := Prod.mk.inj same
    refine ⟨rfl, ?_, placed⟩
    cases listed : s.history (s.mem (entryOf L.runPt core)) with
    | none => simp [listed] at runs
    | some h =>
        cases h with
        | running => rfl
        | created task stop => simp [listed, History.isRunning] at runs
        | out context => simp [listed, History.isRunning] at runs
  · cases there

theorem not_running {other : Nat} (running : s.history tcb = some .running)
    (listed : s.history other = some h) (resting : h.isRunning = false) : other ≠ tcb := by
  rintro rfl
  rw [running] at listed
  cases listed
  cases resting

theorem store_good {core : Core} {addr : Nat} (value : Nat) (good : Good L s)
    (there : runningOn L s core = some (tcb, stack)) (inside : stack.Contains addr) :
    Good L { s with mem := Function.update s.mem addr value } := by
  obtain ⟨_, running, placed⟩ := runningOn_spec there
  refine ⟨good.wellFormed, good.placed, ?_⟩
  intro other h own listed resting other_placed
  have different := not_running running listed resting
  refine (good.saved other h own listed resting other_placed).frame ?_ ?_
  · refine Function.update_of_ne ?_ _ _
    rintro rfl
    exact L.tcb_outside _ tcb stack own other_placed placed inside
  · intro word word_inside
    refine Function.update_of_ne ?_ _ _
    rintro rfl
    exact L.stacks_apart tcb other stack own placed other_placed different.symm _ inside word_inside

theorem schedule_good (core : Core) (next : Nat) (good : Good L s) :
    Good L { s with mem := Function.update s.mem (entryOf L.nextRunPt core) next } := by
  refine ⟨good.wellFormed, good.placed, ?_⟩
  intro other h own listed resting placed
  refine (good.saved other h own listed resting placed).frame ?_ ?_
  · exact Function.update_of_ne (L.tcb_apart core other own placed).2.1 _ _
  · intro word inside
    refine Function.update_of_ne ?_ _ _
    rintro rfl
    exact (L.arrays_outside core other own placed).2 inside

theorem layOut_other {task addr : Nat} (outside : ¬ stack.Contains addr) (room : 64 ≤ stack.size)
    (elsewhere : addr ≠ tcb) : layOut mem stack tcb task addr = mem addr := by
  have apart (word : Nat) (inside : stack.Contains word) : addr ≠ word := by
    rintro rfl
    exact outside inside
  rw [layOut, Function.update_of_ne elsewhere, Function.update_of_ne (apart _ ⟨by omega, by omega⟩),
    Function.update_of_ne (apart _ ⟨by omega, by omega⟩),
    Function.update_of_ne (apart _ ⟨by omega, by omega⟩)]

theorem layOut_saved {task : Nat} (outside : ¬ stack.Contains tcb) (room : 64 ≤ stack.size)
    (even : stack.size % 8 = 0) (aligned : stack.base % 4 = 0) :
    Saved (layOut mem stack tcb task) tcb stack (.created task (stack.base + stack.size)) := by
  have sp : layOut mem stack tcb task tcb = stack.base + stack.size - 64 := Function.update_self _ _ _
  have apart (word : Nat) (inside : stack.Contains word) : word ≠ tcb := by
    rintro rfl
    exact outside inside
  have psr : layOut mem stack tcb task (stack.base + stack.size - 64 + 60) = 0x01000000 := by
    rw [layOut, Function.update_of_ne (apart _ ⟨by omega, by omega⟩),
      Function.update_of_ne (by omega), Function.update_of_ne (by omega),
      show stack.base + stack.size - 64 + 60 = stack.base + stack.size - 4 by omega,
      Function.update_self]
  have pc : layOut mem stack tcb task (stack.base + stack.size - 64 + 4 * 14) = task := by
    rw [layOut, Function.update_of_ne (apart _ ⟨by omega, by omega⟩),
      Function.update_of_ne (by omega),
      show stack.base + stack.size - 64 + 4 * 14 = stack.base + stack.size - 8 by omega,
      Function.update_self]
  refine ⟨by rw [sp]; omega, by rw [sp]; omega, ?_⟩
  rw [sp]
  refine ⟨pc, ?_, ?_⟩
  · simp only [restored, if_true, psr]
    rw [show 0x01000000 / 2 ^ 9 % 2 * 4 = 0 from rfl, Nat.or_zero]
    omega
  · simp only [restored, psr]
    rfl

theorem addThread_good {task : Nat} (good : Good L s) (unknown : s.history tcb = none)
    (placed : L.stackOf tcb = some stack) (room : 64 ≤ stack.size) (even : stack.size % 8 = 0) :
    Good L ⟨layOut s.mem stack tcb task, s.context,
      Function.update s.history tcb (some (.created task (stack.base + stack.size)))⟩ := by
  refine ⟨good.wellFormed, ?_, ?_⟩
  · intro other h listed
    by_cases here : other = tcb
    · rw [here, placed]
      rfl
    · exact good.placed other h ((Function.update_of_ne here _ _).symm.trans listed)
  · intro other h own listed resting other_placed
    by_cases here : other = tcb
    · subst here
      obtain rfl : stack = own := Option.some.inj (placed.symm.trans other_placed)
      simp only [Function.update_self, Option.some.injEq] at listed
      subst listed
      exact layOut_saved (L.tcb_outside _ _ _ _ placed placed) room even
        (L.stacks_aligned _ _ placed).1
    · have known : s.history other = some h := (Function.update_of_ne here _ _).symm.trans listed
      refine (good.saved other h own known resting other_placed).frame ?_ ?_
      · exact layOut_other (L.tcb_outside _ _ _ _ other_placed placed) room here
      · intro word inside
        refine layOut_other ?_ room ?_
        · exact L.stacks_apart other tcb own stack other_placed placed here word inside
        · rintro rfl
          exact L.tcb_outside _ _ _ _ placed other_placed inside

/-! One switch -/

theorem savedSp_room {c : Context} (wellFormed : c.WellFormed)
    (room : stack.base + 64 ≤ rounded (c.reg .sp)) (top : c.reg .sp ≤ stack.base + stack.size) :
    stack.base ≤ savedSp c ∧ savedSp c + 64 ≤ stack.base + stack.size ∧ savedSp c % 4 = 0 := by
  rw [rounded] at room
  have split := savedSp_eq wellFormed (by omega)
  omega

theorem rounded_deep {base sp : Nat} (room : base + 64 ≤ rounded sp) : 64 + sp % 8 ≤ sp := by
  rw [rounded] at room
  omega

def leftBehind (L : Layout) (s : System) (core : Core) : System where
  mem := (switch (entryOf L.runPt core) (entryOf L.nextRunPt core)
    ⟨s.context core, s.mem, false⟩).mem
  context := s.context
  history := leaving L s core

section Switch

variable {core : Core} (good : Good L s) (there : runningOn L s core = some (tcb, stack))
  (room : stack.base + 64 ≤ rounded ((s.context core).reg .sp))
  (top : (s.context core).reg .sp ≤ stack.base + stack.size)

include good there room top

theorem leftBehind_mem :
    (leftBehind L s core).mem = Function.update
      (Function.update (storeWords s.mem (savedSp (s.context core)) (savedWords (s.context core))) tcb
        (savedSp (s.context core)))
      (entryOf L.runPt core) (s.mem (entryOf L.nextRunPt core)) := by
  obtain ⟨here, _, placed⟩ := runningOn_spec there
  obtain ⟨bottom, fits, _⟩ := savedSp_room (good.wellFormed core) room top
  have outside {addr : Nat} (away : ¬ stack.Contains addr) :
      storeWords s.mem (savedSp (s.context core)) (savedWords (s.context core)) addr = s.mem addr := by
    apply storeWords_outside
    have length : (savedWords (s.context core)).length = 16 := rfl
    simp only [Stack.Contains] at away
    omega
  obtain ⟨entry_outside, next_outside⟩ := L.arrays_outside core tcb stack placed
  have entry := outside entry_outside
  have next := outside next_outside
  simp only [leftBehind, switch]
  rw [entry, here, Function.update_of_ne (L.tcb_apart core tcb stack placed).2.1.symm, next]

theorem leftBehind_good : Good L (leftBehind L s core) := by
  obtain ⟨here, running, placed⟩ := runningOn_spec there
  obtain ⟨bottom, fits, aligned⟩ := savedSp_room (good.wellFormed core) room top
  have memory := leftBehind_mem good there room top
  have unchanged {addr : Nat} (away : ¬ stack.Contains addr) (other : addr ≠ tcb)
      (not_entry : addr ≠ entryOf L.runPt core) : (leftBehind L s core).mem addr = s.mem addr := by
    rw [memory, Function.update_of_ne not_entry, Function.update_of_ne other]
    apply storeWords_outside
    have length : (savedWords (s.context core)).length = 16 := rfl
    simp only [Stack.Contains] at away
    omega
  have histories : (leftBehind L s core).history =
      Function.update s.history tcb (some (.out (s.context core))) := by
    simp only [leftBehind, leaving, here]
  refine ⟨good.wellFormed, ?_, ?_⟩
  · intro other h listed
    by_cases same : other = tcb
    · rw [same, placed]
      rfl
    · rw [histories, Function.update_of_ne same] at listed
      exact good.placed other h listed
  · intro other h own listed resting other_placed
    by_cases same : other = tcb
    · subst same
      obtain rfl : stack = own := Option.some.inj (placed.symm.trans other_placed)
      rw [histories, Function.update_self] at listed
      obtain rfl := Option.some.inj listed
      have sp : (leftBehind L s core).mem other = savedSp (s.context core) := by
        rw [memory, Function.update_of_ne (L.tcb_apart core other stack placed).1,
          Function.update_self]
      refine ⟨by rw [sp]; exact ⟨bottom, fits⟩, by rw [sp]; exact aligned, ?_⟩
      rw [sp]
      refine (restored_congr fun i low => ?_).trans
        (restored_saved (good.wellFormed core) (rounded_deep room) s.mem)
      have word : stack.Contains (savedSp (s.context core) + 4 * i) := ⟨by omega, by omega⟩
      have not_entry : savedSp (s.context core) + 4 * i ≠ entryOf L.runPt core := by
        intro equal
        exact (L.arrays_outside core other stack placed).1 (equal ▸ word)
      have not_tcb : savedSp (s.context core) + 4 * i ≠ other := by
        intro equal
        exact L.tcb_outside _ _ _ _ placed placed (equal ▸ word)
      rw [memory, Function.update_of_ne not_entry, Function.update_of_ne not_tcb]
    · rw [histories, Function.update_of_ne same] at listed
      refine (good.saved other h own listed resting other_placed).frame ?_ ?_
      · exact unchanged (L.tcb_outside _ _ _ _ other_placed placed) same
          (L.tcb_apart core other own other_placed).1
      · intro word inside
        refine unchanged (L.stacks_apart other tcb own stack other_placed placed same word inside) ?_ ?_
        · rintro rfl
          exact L.tcb_outside _ _ _ _ placed other_placed inside
        · rintro rfl
          exact (L.arrays_outside core other own other_placed).1 inside

end Switch

/-- The thread that is resumed is one that the first half left saved. -/
theorem pendSv_good {core : Core} (good : Good L s)
    (stepped : step L rounded s (.pendSv core) = some s') :
    Good L s' ∧ Resumed L s core s' := by
  simp only [step] at stepped
  split at stepped
  case h_2 => cases stepped
  case h_1 tcb stack there =>
    split at stepped
    case isFalse => cases stepped
    case isTrue allowed =>
      obtain ⟨room, top, resting⟩ := allowed
      obtain ⟨here, running, placed⟩ := runningOn_spec there
      have middle := leftBehind_good good there room top
      obtain ⟨h, listed, rests⟩ : ∃ h, leaving L s core (s.mem (entryOf L.nextRunPt core)) = some h ∧
          h.isRunning = false := by
        simpa [Option.any_eq_true] using resting
      obtain ⟨own, next_placed⟩ := Option.isSome_iff_exists.mp (middle.placed _ h listed)
      have entry : (leftBehind L s core).mem (entryOf L.runPt core) =
          s.mem (entryOf L.nextRunPt core) := by
        rw [leftBehind_mem good there room top, Function.update_self]
      have switched : pendSv L.runPt L.nextRunPt core ⟨s.context core, s.mem, false⟩ =
          switch (entryOf L.runPt core) (entryOf L.nextRunPt core) ⟨s.context core, s.mem, false⟩ := by
        apply pendSv_switch L.fits.1 L.fits.2 (rounded_deep room)
          (good.wellFormed core).aligned (L.arrays_memory core).1 (L.arrays_memory core).2
        exact entry.trans_ne (L.tcb_apart core _ own next_placed).2.2
      have context := switch_context (entryOf L.runPt core) (entryOf L.nextRunPt core)
        ⟨s.context core, s.mem, false⟩
      have saved := middle.saved _ h own listed rests next_placed
      rw [switched] at stepped
      change (switch _ _ _).context = restored (leftBehind L s core).mem ((leftBehind L s core).mem
        ((leftBehind L s core).mem (entryOf L.runPt core))) at context
      rw [entry] at context
      obtain rfl := Option.some.inj stepped
      refine ⟨⟨?_, ?_, ?_⟩, h, listed, ?_⟩
      · intro other
        by_cases same : other = core
        · subst same
          simp only [Function.update_self, context]
          exact restored_wellFormed saved.aligned
        · simp only [Function.update_of_ne same]
          exact good.wellFormed other
      · intro other h' known
        by_cases same : other = s.mem (entryOf L.nextRunPt core)
        · rw [same, next_placed]
          rfl
        · exact middle.placed other h' ((Function.update_of_ne same _ _).symm.trans known)
      · intro other h' own' known rests' placed'
        have same : other ≠ s.mem (entryOf L.nextRunPt core) := by
          rintro rfl
          simp only [Function.update_self, Option.some.injEq] at known
          subst known
          cases rests'
        exact middle.saved other h' own' ((Function.update_of_ne same _ _).symm.trans known) rests'
          placed'
      · simp only [Function.update_self, context]
        exact saved.meets

theorem step_good (action : Action) (good : Good L s)
    (stepped : step L rounded s action = some s') : Good L s' := by
  cases action with
  | store core addr value =>
      simp only [step] at stepped
      split at stepped
      · rename_i tcb stack there
        split at stepped
        · rename_i inside
          obtain rfl := Option.some.inj stepped
          exact store_good value good there inside.1
        · cases stepped
      · cases stepped
  | compute core context =>
      simp only [step] at stepped
      split at stepped
      · rename_i kept
        obtain rfl := Option.some.inj stepped
        refine ⟨fun other => ?_, good.placed, good.saved⟩
        by_cases same : other = core
        · subst same
          simp only [Function.update_self]
          exact ⟨kept.1, kept.2⟩
        · simp only [Function.update_of_ne same]
          exact good.wellFormed other
      · cases stepped
  | schedule core next =>
      obtain rfl := Option.some.inj stepped
      exact schedule_good core next good
  | addThread tcb task =>
      simp only [step] at stepped
      split at stepped
      · rename_i stack unknown placed
        split at stepped
        · rename_i sized
          obtain rfl := Option.some.inj stepped
          exact addThread_good good unknown placed sized.1 sized.2
        · cases stepped
      · cases stepped
  | pendSv core => exact (pendSv_good good stepped).1

/-! Runs -/

theorem launched_good (launched : Launched L s) : Good L s := by
  refine ⟨launched.wellFormed, fun tcb h listed => (launched.running tcb h listed).2, ?_⟩
  intro tcb h stack listed resting _
  rw [(launched.running tcb h listed).1] at resting
  cases resting

theorem reached_good (reached : Reaches (step L rounded) free (Launched L) s) : Good L s :=
  reached.invariant (Good L) (fun _ => launched_good)
    fun _ action _ good _ stepped => step_good action good stepped

/-- In any run whose switches each find 64 free bytes below the SP rounded down to
a multiple of 8, every thread that is resumed finds its registers, and a new one
starts at its task at the end of its stack. -/
theorem resumes_as_left {core : Core} (reached : Reaches (step L rounded) free (Launched L) s)
    (stepped : step L rounded s (.pendSv core) = some s') : Resumed L s core s' :=
  (pendSv_good (reached_good reached) stepped).2

/-- In a stack that begins at a multiple of 8 the rounding costs nothing. -/
theorem rounded_room {base sp : Nat} (even : base % 8 = 0) :
    base + 64 ≤ rounded sp ↔ base + 64 ≤ sp := by
  rw [rounded]
  omega

/-! Two threads whose stacks touch -/

def upperTcb : Nat := 0x20000080
def lowerTcb : Nat := 0x20000100

def touchingStacks (tcb : Nat) : Option Stack :=
  if tcb = upperTcb then some ⟨0x20001004, 256⟩
  else if tcb = lowerTcb then some ⟨0x20000F04, 256⟩
  else none

theorem touchingStacks_cases (found : touchingStacks tcb = some stack) :
    tcb = upperTcb ∧ stack = ⟨0x20001004, 256⟩ ∨ tcb = lowerTcb ∧ stack = ⟨0x20000F04, 256⟩ := by
  simp only [touchingStacks] at found
  split at found
  · rename_i upper
    exact Or.inl ⟨upper, (Option.some.inj found).symm⟩
  · split at found
    · rename_i lower
      exact Or.inr ⟨lower, (Option.some.inj found).symm⟩
    · cases found

def touching : Layout where
  runPt := 0x20000000
  nextRunPt := 0x20000008
  stackOf := touchingStacks
  fits := by decide
  arrays_apart core other := by cases core <;> cases other <;> decide
  arrays_memory core := by cases core <;> decide
  arrays_outside core tcb stack found := by
    obtain ⟨rfl, rfl⟩ | ⟨rfl, rfl⟩ := touchingStacks_cases found <;> cases core <;> decide
  tcb_apart core tcb stack found := by
    obtain ⟨rfl, rfl⟩ | ⟨rfl, rfl⟩ := touchingStacks_cases found <;> cases core <;> decide
  tcb_outside tcb other stack own found found' := by
    obtain ⟨rfl, rfl⟩ | ⟨rfl, rfl⟩ := touchingStacks_cases found <;>
      obtain ⟨rfl, rfl⟩ | ⟨rfl, rfl⟩ := touchingStacks_cases found' <;> decide
  stacks_aligned tcb stack found := by
    obtain ⟨rfl, rfl⟩ | ⟨rfl, rfl⟩ := touchingStacks_cases found <;> decide
  stacks_apart tcb other own stack found found' different addr := by
    obtain ⟨rfl, rfl⟩ | ⟨rfl, rfl⟩ := touchingStacks_cases found <;>
      obtain ⟨rfl, rfl⟩ | ⟨rfl, rfl⟩ := touchingStacks_cases found' <;>
      simp [Stack.Contains] at different ⊢ <;> omega

def firstRuns (sp : Nat) : System where
  mem addr := if addr = 0x20000000 then upperTcb else 0
  context _ := ⟨fun r => if r = .sp then sp else if r = .r8 then 7 else 0, 0x01000000⟩
  history tcb := if tcb = upperTcb then some .running else none

theorem firstRuns_launched {sp : Nat} (aligned : sp % 4 = 0) : Launched touching (firstRuns sp) := by
  refine ⟨fun _ => ⟨by simpa [firstRuns] using aligned, by simp [firstRuns]⟩, ?_⟩
  intro tcb h listed
  simp only [firstRuns] at listed
  split at listed
  · rename_i upper
    subst upper
    exact ⟨(Option.some.inj listed).symm, by decide⟩
  · cases listed

def thereAndBack : List Action :=
  [.addThread lowerTcb 0x10000401, .schedule .cpu0 lowerTcb, .pendSv .cpu0,
    .store .cpu0 0x20001000 9, .schedule .cpu0 upperTcb]

theorem resumes_first_thread :
    ∃ s s', Reaches (step touching rounded) free (Launched touching) s ∧
      step touching rounded s (.pendSv .cpu0) = some s' ∧ Resumed touching s .cpu0 s' := by
  obtain ⟨s, executed⟩ : ∃ s, exec (step touching rounded) (firstRuns 0x20001080) thereAndBack =
      some s := Option.isSome_iff_exists.mp (by decide +kernel)
  obtain ⟨s', stepped⟩ : ∃ s', step touching rounded s (.pendSv .cpu0) = some s' := by
    have both : ((exec (step touching rounded) (firstRuns 0x20001080) thereAndBack).bind fun s =>
        step touching rounded s (.pendSv .cpu0)).isSome := by decide +kernel
    rw [executed] at both
    exact Option.isSome_iff_exists.mp both
  have reached := exec_reaches thereAndBack (.start (firstRuns_launched (by decide)))
    (allowed_free _ _ _) executed
  exact ⟨s, s', reached, stepped, resumes_as_left reached stepped⟩

def History.upper : History → Option Nat
  | .out context => some (context.reg .r8)
  | _ => none

/-- With 64 free bytes below an SP that is no multiple of 8, the save reaches into
the stack below, where the second thread writes over R8. -/
theorem upper_register_lost :
    ∃ s s', Reaches (step touching id) free (Launched touching) s ∧
      step touching id s (.pendSv .cpu0) = some s' ∧ ¬ Resumed touching s .cpu0 s' := by
  obtain ⟨s, executed⟩ : ∃ s, exec (step touching id) (firstRuns 0x20001044) thereAndBack =
      some s := Option.isSome_iff_exists.mp (by decide +kernel)
  have next : ((exec (step touching id) (firstRuns 0x20001044) thereAndBack).bind fun s =>
      (leaving touching s .cpu0 (s.mem (entryOf touching.nextRunPt .cpu0))).bind History.upper) =
        some 7 := by decide +kernel
  have lost : ((exec (step touching id) (firstRuns 0x20001044) thereAndBack).bind fun s =>
      (step touching id s (.pendSv .cpu0)).map fun s' => (s'.context .cpu0).reg .r8) = some 9 := by
    decide +kernel
  rw [executed, Option.bind_some] at next lost
  obtain ⟨s', stepped, r8⟩ := Option.map_eq_some_iff.mp lost
  refine ⟨s, s', exec_reaches thereAndBack (.start (firstRuns_launched (by decide)))
    (allowed_free _ _ _) executed, stepped, ?_⟩
  rintro ⟨h, listed, meets⟩
  rw [listed, Option.bind_some] at next
  cases h with
  | running => exact meets
  | created task stop => cases next
  | out context =>
      have kept : (s'.context .cpu0).reg .r8 = 7 := by
        rw [meets]
        exact Option.some.inj next
      omega

end MulticoreRtos.ThreadContexts
