import MulticoreRtos.CoreLaunch

/-!
The launch with a boot ROM that keeps to its protocol: no step of either core is
ever missed or repeated for ever, and core 1 starts where it was told to, with
the timeslice of core 0.
-/

namespace MulticoreRtos.CoreLaunch

open Transition

/-- The protocol of the boot ROM: behind a zero it takes a one, a vector table, a
stack pointer and an entry point, and answers each word by itself. What it was
told before may make it refuse a zero, but only so many times. -/
structure Documented {Rom : Type} (c : Config) (rom : BootRom Rom) where
  zero : Rom
  one : Rom
  gotVector : Rom
  gotStack : Rom
  gotEntry : Rom
  patience : Rom → Nat
  zero_known : ∀ state, rom.launch state = none → rom.reply state 0 = (0, zero) ∨
    ((rom.reply state 0).1 ≠ 0 ∧ rom.launch (rom.reply state 0).2 = none ∧
      patience (rom.reply state 0).2 < patience state)
  zero_again : rom.reply zero 0 = (0, zero)
  one_known : rom.reply zero 1 = (1, one)
  vector_known : rom.reply one c.vectorTable = (c.vectorTable, gotVector)
  stack_known : rom.reply gotVector cpu1StackTop = (cpu1StackTop, gotStack)
  entry_known : rom.reply gotStack c.initialPc1 = (c.initialPc1, gotEntry)
  waits : ∀ state, state = zero ∨ state = one ∨ state = gotVector ∨ state = gotStack →
    rom.launch state = none
  starts : rom.launch gotEntry = some ⟨c.vectorTable, cpu1StackTop, c.initialPc1⟩

section Protocol
variable {Rom : Type} {c : Config} {rom : BootRom Rom}

def Documented.Stage (documented : Documented c rom) : Nat → Rom → Prop
  | 0, state => rom.launch state = none
  | 1, state => state = documented.zero
  | 2, state => state = documented.zero
  | 3, state => state = documented.one
  | 4, state => state = documented.gotVector
  | 5, state => state = documented.gotStack
  | _, state => state = documented.gotEntry

def Documented.left (documented : Documented c rom) (idx : Nat) (state : Rom) : Nat :=
  if idx = 0 then 6 + documented.patience state else 6 - idx

def Documented.knows (documented : Documented c rom) (total : Nat) : Knowledge Rom :=
  fun rounds idx state =>
    documented.Stage idx state ∧ rounds + documented.left idx state ≤ total

theorem Documented.unlaunched (documented : Documented c rom) {idx : Nat} {state : Rom}
    (within : idx < 6) (stage : documented.Stage idx state) : rom.launch state = none := by
  have waits := documented.waits state
  have few : idx = 0 ∨ idx = 1 ∨ idx = 2 ∨ idx = 3 ∨ idx = 4 ∨ idx = 5 := by omega
  rcases few with rfl | rfl | rfl | rfl | rfl | rfl
  · exact stage
  · exact waits (.inl stage)
  · exact waits (.inl stage)
  · exact waits (.inr (.inl stage))
  · exact waits (.inr (.inr (.inl stage)))
  · exact waits (.inr (.inr (.inr stage)))

theorem Documented.answers (documented : Documented c rom) {idx : Nat} {state : Rom}
    (within : idx < 6) (stage : documented.Stage idx state) :
    ((rom.reply state (c.cmd idx)).1 = c.cmd idx ∧
      documented.Stage (idx + 1) (rom.reply state (c.cmd idx)).2) ∨
    (idx = 0 ∧ (rom.reply state (c.cmd idx)).1 ≠ c.cmd idx ∧
      rom.launch (rom.reply state (c.cmd idx)).2 = none ∧
      documented.patience (rom.reply state (c.cmd idx)).2 < documented.patience state) := by
  have few : idx = 0 ∨ idx = 1 ∨ idx = 2 ∨ idx = 3 ∨ idx = 4 ∨ idx = 5 := by omega
  rcases few with rfl | rfl | rfl | rfl | rfl | rfl
  · rcases documented.zero_known state stage with known | refused
    · exact .inl ⟨congrArg Prod.fst known, congrArg Prod.snd known⟩
    · exact .inr ⟨rfl, refused⟩
  · obtain rfl := stage
    exact .inl ⟨congrArg Prod.fst documented.zero_again, congrArg Prod.snd documented.zero_again⟩
  · obtain rfl := stage
    exact .inl ⟨congrArg Prod.fst documented.one_known, congrArg Prod.snd documented.one_known⟩
  · obtain rfl := stage
    exact .inl ⟨congrArg Prod.fst documented.vector_known, congrArg Prod.snd documented.vector_known⟩
  · obtain rfl := stage
    exact .inl ⟨congrArg Prod.fst documented.stack_known, congrArg Prod.snd documented.stack_known⟩
  · obtain rfl := stage
    exact .inl ⟨congrArg Prod.fst documented.entry_known, congrArg Prod.snd documented.entry_known⟩

theorem Documented.tracks (documented : Documented c rom) (total : Nat) :
    Tracks c rom (documented.knows total) where
  right rounds idx state within known same := by
    obtain ⟨stage, budget⟩ := known
    rcases documented.answers within stage with ⟨_, next⟩ | ⟨_, other, _⟩
    · refine ⟨next, ?_⟩
      unfold Documented.left at budget ⊢
      rw [if_neg (Nat.succ_ne_zero idx)]
      split at budget <;> omega
    · exact absurd same other
  wrong rounds idx state within known other := by
    obtain ⟨stage, budget⟩ := known
    rcases documented.answers within stage with ⟨same, _⟩ | ⟨rfl, _, unlaunched, nearer⟩
    · exact absurd same other
    · refine ⟨unlaunched, ?_⟩
      unfold Documented.left at budget ⊢
      rw [if_pos rfl] at budget ⊢
      omega

end Protocol

/-! No wake-up is lost between the cores. -/
section Wakeups
variable {Rom : Type} {c : Config} {rom : BootRom Rom} {s after : State Rom}

/-- A sleeper with a word in front of it has an event pending, or the writer of
the word is about to signal it. -/
structure Wakes (s : State Rom) : Prop where
  core1 : ∀ reader, s.core1 = .asleep reader → s.toCore1 ≠ [] →
    s.event1 = true ∨ (∃ idx, s.core0 = .pushed idx) ∨ s.core0 = .handed
  core0 : ∀ idx, s.core0 = .waiting idx → s.toCore0 ≠ [] →
    s.event0 = true ∨ ∃ state, s.core1 = .answered state

theorem initial_wakes (begun : Initial rom s) : Wakes s where
  core1 _ _ word := absurd begun.toCore1 word
  core0 idx core0 := by rw [begun.core0] at core0; cases core0

theorem wakes_step0 (wakes : Wakes s) (stepped : Step0 c s after) : Wakes after := by
  have quiet : (∀ idx, s.core0 ≠ .pushed idx) → s.core0 ≠ .handed → ∀ reader,
      s.core1 = .asleep reader → s.toCore1 ≠ [] → s.event1 = true := by
    intro not_pushed not_handed reader core1 word
    rcases wakes.core1 reader core1 word with event | ⟨idx, pushed⟩ | handed
    · exact event
    · exact absurd pushed (not_pushed idx)
    · exact absurd handed not_handed
  -- only `push` and `hand` put a word in front of core 1, and the next step is the `sev`
  cases stepped with
  | drain idx core0 _ =>
      exact ⟨fun reader core1 word => .inl (quiet (by simp [core0]) (by simp [core0]) reader core1 word),
        by simp⟩
  | go idx core0 _ =>
      exact ⟨fun reader core1 word => .inl (quiet (by simp [core0]) (by simp [core0]) reader core1 word),
        by simp⟩
  | discard idx core0 _ _ _ =>
      exact ⟨fun reader core1 word => .inl (quiet (by simp [core0]) (by simp [core0]) reader core1 word),
        by simp⟩
  | empty idx core0 _ =>
      exact ⟨fun reader core1 word => .inl (quiet (by simp [core0]) (by simp [core0]) reader core1 word),
        by simp⟩
  | wake idx core0 => exact ⟨fun _ _ _ => .inl rfl, by simp [sev]⟩
  | push idx core0 _ => exact ⟨fun _ _ _ => .inr (.inl ⟨idx, rfl⟩), by simp⟩
  | signal idx core0 => exact ⟨fun _ _ _ => .inl rfl, by simp [sev]⟩
  | await idx core0 none_left =>
      exact ⟨fun reader core1 word => .inl (quiet (by simp [core0]) (by simp [core0]) reader core1 word),
        fun _ _ word => absurd none_left word⟩
  | pop idx core0 response _ _ =>
      refine ⟨fun reader core1 word => .inl (quiet (by simp [core0]) (by simp [core0]) reader core1 word),
        fun other waiting => ?_⟩
      rcases afterRound_cases idx (c.cmd idx) response with ⟨next, goes⟩ | goes
      · rw [goes] at waiting
        cases waiting
      · rw [goes] at waiting
        cases waiting
  | resume idx core0 _ =>
      exact ⟨fun reader core1 word => .inl (quiet (by simp [core0]) (by simp [core0]) reader core1 word),
        by simp⟩
  | hand core0 _ => exact ⟨fun _ _ _ => .inr (.inr rfl), by simp⟩
  | finish core0 => exact ⟨fun _ _ _ => .inl rfl, by simp [sev]⟩

theorem wakes_step1 (wakes : Wakes s) (stepped : Step1 c rom s after) : Wakes after := by
  have pending : (∀ state, s.core1 ≠ .answered state) → ∀ idx, s.core0 = .waiting idx →
      s.toCore0 ≠ [] → s.event0 = true := by
    intro not_answered idx core0 word
    rcases wakes.core0 idx core0 word with event | ⟨state, answered⟩
    · exact event
    · exact absurd answered (not_answered state)
  cases stepped with
  | sleep reader core1 _ =>
      exact ⟨fun _ _ word => absurd rfl word,
        fun idx core0 word => .inl (pending (by simp [core1]) idx core0 word)⟩
  | take state core1 _ _ _ =>
      exact ⟨by simp, fun idx core0 word => .inl (pending (by simp [core1]) idx core0 word)⟩
  | enter place core1 _ _ _ _ =>
      exact ⟨by simp, fun idx core0 word => .inl (pending (by simp [core1]) idx core0 word)⟩
  | resume reader core1 _ =>
      exact ⟨by simp, fun idx core0 word => .inl (pending (by simp [core1]) idx core0 word)⟩
  | answer state word core1 _ => exact ⟨by simp, fun _ _ _ => .inr ⟨_, rfl⟩⟩
  | signal state core1 => exact ⟨by simp [sev], fun _ _ _ => .inl rfl⟩

end Wakeups

/-! Every run ends. -/
section Ending
variable {Rom : Type} {c : Config} {rom : BootRom Rom} {s after : State Rom}

def Launcher.weight : Launcher → Nat
  | .start _ => 60
  | .draining _ => 59
  | .drained _ => 58
  | .pushing _ => 52
  | .pushed _ => 25
  | .popping _ => 1
  | .waiting _ => 0
  | .handing => 52
  | .handed => 25
  | .done => 0

def Responder.weight : Responder Rom → Nat
  | .polling _ => 1
  | .asleep _ => 0
  | .answering _ _ => 15
  | .answered _ => 10
  | .initScheduler _ _ => 0

/-- A word to core 1 is worth the steps it takes to answer it, an event the step
of waking up, and a round everything that belongs to it. -/
def weight (total : Nat) (s : State Rom) : Nat :=
  100 * (total - s.exchanged.length) + s.core0.weight + s.core1.weight + 20 * s.toCore1.length +
    s.toCore0.length + 2 * s.event0.toNat + 2 * s.event1.toNat

theorem weight_step0 {total : Nat} {knows : Knowledge Rom}
    (bounded : ∀ rounds idx state, idx < 6 → knows rounds idx state → rounds < total)
    (talks : Talks c rom knows s) (stepped : Step0 c s after) : weight total after < weight total s := by
  have event0 := Bool.toNat_le s.event0
  have event1 := Bool.toNat_le s.event1
  cases stepped with
  | drain idx core0 _ => simp only [weight, core0, Launcher.weight]; omega
  | go idx core0 _ => simp only [weight, core0, Launcher.weight]; omega
  | discard idx core0 word rest found =>
      simp only [weight, core0, Launcher.weight, found, List.length_cons]; omega
  | empty idx core0 _ => simp only [weight, core0, Launcher.weight]; omega
  | wake idx core0 => simp only [weight, core0, Launcher.weight, sev, Bool.toNat_true]; omega
  | push idx core0 _ =>
      simp only [weight, core0, Launcher.weight, List.length_append, List.length_singleton]; omega
  | signal idx core0 => simp only [weight, core0, Launcher.weight, sev, Bool.toNat_true]; omega
  | await idx core0 _ => simp only [weight, core0, Launcher.weight]; omega
  | pop idx core0 response rest found =>
      obtain ⟨⟨state, known, _⟩, within, _⟩ := (talks_round (.inr (.inl core0))).mp talks
      have more := bounded _ idx state within known
      -- a round is worth 100, enough for the way back to the start
      have next : (afterRound idx (c.cmd idx) response).weight ≤ 60 := by
        rcases afterRound_cases idx (c.cmd idx) response with ⟨_, goes⟩ | goes
        · rw [goes]
          exact le_rfl
        · rw [goes]
          decide
      have here : s.core0.weight = 1 := by
        rw [core0]
        rfl
      simp only [weight, here, found, List.length_cons, List.length_append, List.length_nil]
      omega
  | resume idx core0 event =>
      simp only [weight, core0, Launcher.weight, event, Bool.toNat_true, Bool.toNat_false]; omega
  | hand core0 _ =>
      simp only [weight, core0, Launcher.weight, List.length_append, List.length_singleton]; omega
  | finish core0 => simp only [weight, core0, Launcher.weight, sev, Bool.toNat_true]; omega

theorem weight_step1 {total : Nat} (stepped : Step1 c rom s after) :
    weight total after < weight total s := by
  have event0 := Bool.toNat_le s.event0
  have event1 := Bool.toNat_le s.event1
  cases stepped with
  | sleep reader core1 none_left =>
      simp only [weight, core1, Responder.weight, none_left, List.length_nil]; omega
  | take state core1 word rest found =>
      simp only [weight, core1, Responder.weight, found, List.length_cons]; omega
  | enter place core1 word rest found _ =>
      simp only [weight, core1, Responder.weight, found, List.length_cons]; omega
  | resume reader core1 event =>
      simp only [weight, core1, Responder.weight, event, Bool.toNat_true, Bool.toNat_false]; omega
  | answer state word core1 _ =>
      simp only [weight, core1, Responder.weight, List.length_append, List.length_singleton]; omega
  | signal state core1 => simp only [weight, core1, Responder.weight, sev, Bool.toNat_true]; omega

/-- As many steps as the weight at the start, and no more. -/
theorem run_length {total : Nat} {knows : Knowledge Rom} (tracks : Tracks c rom knows)
    (bounded : ∀ rounds idx state, idx < 6 → knows rounds idx state → rounds < total)
    (actions : List Action) (s : State Rom) (talks : Talks c rom knows s)
    (executed : exec (step c rom) s actions = some after) : actions.length ≤ weight total s := by
  induction actions generalizing s with
  | nil => exact Nat.zero_le _
  | cons action rest ih =>
      cases stepped : step c rom s action with
      | none => simp only [exec, stepped, reduceCtorEq] at executed
      | some next =>
          simp only [exec, stepped] at executed
          have later := ih next (talks_step tracks action talks stepped) executed
          have falls : weight total next < weight total s := by
            cases action with
            | core0 => exact weight_step0 bounded talks (step0_cases stepped)
            | core1 => exact weight_step1 (step1_cases stepped)
          simp only [List.length_cons]
          omega

end Ending

/-! Where no core can go on. -/
section Stuck
variable {Rom : Type} {c : Config} {rom : BootRom Rom} {s : State Rom}

theorem core1_goes_on (wakes : Wakes s) {state : Rom} (place : At rom s state)
    (expects : ∀ entry, rom.launch state = some entry → entry.pc = c.initialPc1)
    (word : s.toCore1 ≠ []) (signalled : (∀ idx, s.core0 ≠ .pushed idx) ∧ s.core0 ≠ .handed) :
    step1 c rom s ≠ none := by
  rcases place with answered | polling | asleep
  · simp [step1, answered]
  · cases there : s.toCore1 with
    | nil => exact absurd there word
    | cons first rest =>
        cases launched : rom.launch state with
        | none =>
            have reader : rom.reader state = .rom state := by
              unfold BootRom.reader
              rw [launched]
            simp [step1, polling, there, reader]
        | some entry =>
            have reader : rom.reader state = .entry entry := by
              unfold BootRom.reader
              rw [launched]
            simp [step1, polling, there, reader, expects entry launched]
  · rcases wakes.core1 _ asleep word with event | ⟨idx, pushed⟩ | handed
    · simp [step1, asleep, event]
    · exact absurd pushed (signalled.1 idx)
    · exact absurd handed signalled.2

/-- During a round one of the cores can always go on. -/
theorem round_goes_on (documented : Documented c rom) (deep : 0 < c.depth) (wakes : Wakes s)
    {idx : Nat} (within : idx < 6) (core0 : s.core0 = .waiting idx) {state : Rom}
    (stage : documented.Stage idx state) (underWay : UnderWay rom s (c.cmd idx) state) :
    step0 c s ≠ none ∨ step1 c rom s ≠ none := by
  have unlaunched := documented.unlaunched within stage
  cases underWay with
  | sent there back agreed place =>
      right
      apply core1_goes_on wakes place
      · intro entry launched
        rw [unlaunched] at launched
        cases launched
      · simp [there]
      · simp [core0]
  | taken there back agreed core1 =>
      right
      simp [step1, core1, multicoreFifoPushBlocking, back, deep]
  | answered there back agreed place =>
      rcases wakes.core0 idx core0 (by simp [back]) with event | ⟨answered, core1⟩
      · left
        simp [step0, core0, event]
      · right
        simp [step1, core1]
  -- the boot ROM does not leave in the middle of the sequence
  | swallowed there back agreed entry launched core1 =>
      rw [unlaunched] at launched
      cases launched

/-- Core 0 goes on behind the handshake, core 1 in `init_scheduler` with the
stack, the vector table and the timeslice it was given. -/
def Launched (c : Config) (s : State Rom) : Prop :=
  s.core0 = .done ∧
    s.core1 = .initScheduler ⟨c.vectorTable, cpu1StackTop, c.initialPc1⟩ c.timeslice

theorem stuck_launched (documented : Documented c rom) (deep : 0 < c.depth) (total : Nat)
    (talks : Talks c rom (documented.knows total) s) (wakes : Wakes s)
    (stuck : ∀ action, step c rom s action = none) : Launched c s := by
  have stuck0 : step0 c s = none := stuck .core0
  have stuck1 : step1 c rom s = none := stuck .core1
  cases core0 : s.core0 with
  | start idx =>
      simp only [step0, core0] at stuck0
      split at stuck0
      · cases stuck0
      · cases stuck0
  | draining idx =>
      cases back : s.toCore0 with
      | nil => simp [step0, core0, back] at stuck0
      | cons => simp [step0, core0, back] at stuck0
  | drained idx => simp [step0, core0] at stuck0
  | pushing idx =>
      have there := ((talks_ready (.inr core0)).mp talks).1.toCore1
      simp [step0, core0, multicoreFifoPushBlocking, there, deep] at stuck0
  | pushed idx => simp [step0, core0] at stuck0
  | popping idx =>
      cases back : s.toCore0 with
      | nil => simp [step0, core0, back] at stuck0
      | cons => simp [step0, core0, back] at stuck0
  -- asleep in a round, core 0 depends on core 1
  | waiting idx =>
      obtain ⟨⟨state, ⟨stage, _⟩, underWay⟩, within, _⟩ :=
        (talks_round (.inr (.inr core0))).mp talks
      rcases round_goes_on documented deep wakes within core0 stage underWay with goes | goes
      · exact absurd stuck0 goes
      · exact absurd stuck1 goes
  | handing =>
      have there := ((talks_handing core0).mp talks).1.toCore1
      simp [step0, core0, multicoreFifoPushBlocking, there, deep] at stuck0
  | handed => simp [step0, core0] at stuck0
  | done =>
      obtain ⟨⟨state, ⟨stage, _⟩, handed⟩, _⟩ := (talks_over (.inr core0)).mp talks
      obtain rfl : state = documented.gotEntry := stage
      have starts := documented.starts
      cases handed with
      | sent there place =>
          refine absurd stuck1 (core1_goes_on wakes place ?_ (by simp [there]) (by simp [core0]))
          intro entry launched
          rw [starts] at launched
          cases launched
          rfl
      | arrived entry launched core1 =>
          rw [starts] at launched
          cases launched
          exact ⟨core0, core1⟩
      | astray unlaunched =>
          rw [starts] at unlaunched
          cases unlaunched

theorem handed_started (documented : Documented c rom) {state : Rom}
    (stage : documented.Stage 6 state) (handed : Handed c rom s state) {place : Entry}
    {timeslice : Word} (core1 : s.core1 = .initScheduler place timeslice) :
    place = ⟨c.vectorTable, cpu1StackTop, c.initialPc1⟩ ∧ timeslice = c.timeslice := by
  obtain rfl : state = documented.gotEntry := stage
  have starts := documented.starts
  cases handed with
  | sent there place =>
      rcases place with other | other | other <;>
        · rw [core1] at other
          cases other
  | arrived entry launched other =>
      rw [starts] at launched
      cases launched
      rw [core1] at other
      cases other
      exact ⟨rfl, rfl⟩
  | astray unlaunched =>
      rw [starts] at unlaunched
      cases unlaunched

theorem started_right (documented : Documented c rom) {total : Nat}
    (talks : Talks c rom (documented.knows total) s) {place : Entry} {timeslice : Word}
    (core1 : s.core1 = .initScheduler place timeslice) :
    place = ⟨c.vectorTable, cpu1StackTop, c.initialPc1⟩ ∧ timeslice = c.timeslice ∧
      (s.core0 = .handed ∨ s.core0 = .done) := by
  have elsewhere : ∀ state, ¬ At rom s state := by
    intro state place
    rcases place with other | other | other <;>
      · rw [core1] at other
        cases other
  have no_round : ∀ idx, idx < 6 → ∀ state, documented.Stage idx state →
      ¬ UnderWay rom s (c.cmd idx) state := by
    intro idx within state stage underWay
    cases underWay with
    | sent _ _ _ place => exact elsewhere _ place
    | taken _ _ _ other => rw [core1] at other; cases other
    | answered _ _ _ place => exact elsewhere _ place
    | swallowed _ _ _ entry launched _ =>
        rw [documented.unlaunched within stage] at launched
        cases launched
  have not_quiet : ∀ idx, ¬ Quiet rom (documented.knows total) s idx := by
    rintro idx ⟨_, _, state, place, _⟩
    exact elsewhere state place
  cases core0 : s.core0 with
  | start idx => exact absurd ((talks_start core0).mp talks).1 (not_quiet idx)
  | draining idx => exact absurd ((talks_draining core0).mp talks).1 (not_quiet idx)
  | drained idx => exact absurd ((talks_ready (.inl core0)).mp talks).1 (not_quiet idx)
  | pushing idx => exact absurd ((talks_ready (.inr core0)).mp talks).1 (not_quiet idx)
  | pushed idx =>
      obtain ⟨⟨state, known, underWay⟩, within, _⟩ := (talks_round (.inl core0)).mp talks
      exact absurd underWay (no_round idx within state known.1)
  | popping idx =>
      obtain ⟨⟨state, known, underWay⟩, within, _⟩ := (talks_round (.inr (.inl core0))).mp talks
      exact absurd underWay (no_round idx within state known.1)
  | waiting idx =>
      obtain ⟨⟨state, known, underWay⟩, within, _⟩ := (talks_round (.inr (.inr core0))).mp talks
      exact absurd underWay (no_round idx within state known.1)
  | handing => exact absurd ((talks_handing core0).mp talks).1 (not_quiet 6)
  | handed =>
      obtain ⟨⟨state, known, handed⟩, _⟩ := (talks_over (.inl core0)).mp talks
      obtain ⟨rfl, rfl⟩ := handed_started documented known.1 handed core1
      exact ⟨rfl, rfl, .inl rfl⟩
  | done =>
      obtain ⟨⟨state, known, handed⟩, _⟩ := (talks_over (.inr core0)).mp talks
      obtain ⟨rfl, rfl⟩ := handed_started documented known.1 handed core1
      exact ⟨rfl, rfl, .inr rfl⟩

end Stuck

section Launch
variable {Rom : Type} {c : Config} {rom : BootRom Rom}

theorem initial_knows (documented : Documented c rom) {before : State Rom}
    (begun : Initial rom before) : ∃ total, Talks c rom (documented.knows total) before := by
  obtain ⟨state, unlaunched, core1⟩ := begun.core1
  have reader : rom.reader state = .rom state := by
    unfold BootRom.reader
    rw [unlaunched]
  refine ⟨6 + documented.patience state, initial_talks begun fun other place none_yet => ?_⟩
  have other_reader : rom.reader other = .rom other := by
    unfold BootRom.reader
    rw [none_yet]
  have same : other = state := by
    unfold At at place
    rw [other_reader] at place
    rcases place with here | here | here <;> rcases core1 with there | there <;>
      · rw [there] at here
        cases here <;> rfl
  refine ⟨none_yet, ?_⟩
  rw [same, Documented.left, if_pos rfl, Nat.zero_add]

theorem run_knows (documented : Documented c rom) {before s : State Rom} {total : Nat}
    (talks : Talks c rom (documented.knows total) before) (begun : Initial rom before)
    (reached : Reaches (step c rom) free (· = before) s) :
    Talks c rom (documented.knows total) s ∧ Wakes s :=
  reached.invariant (fun s => Talks c rom (documented.knows total) s ∧ Wakes s)
    (by rintro _ rfl; exact ⟨talks, initial_wakes begun⟩)
    fun _ action _ ⟨talks, wakes⟩ _ stepped => by
      refine ⟨talks_step (documented.tracks total) action talks stepped, ?_⟩
      cases action with
      | core0 => exact wakes_step0 wakes (step0_cases stepped)
      | core1 => exact wakes_step1 wakes (step1_cases stepped)

/-- Every run of the two cores ends, and it ends with both of them launched:
no order of their steps loses a wake-up, blocks on a FIFO or goes round for ever. -/
theorem launch_completes (c : Config) (rom : BootRom Rom) (documented : Documented c rom)
    (deep : 0 < c.depth) (before : State Rom) (begun : Initial rom before) :
    (∃ bound, ∀ actions s, exec (step c rom) before actions = some s → actions.length ≤ bound) ∧
    ∀ s, Reaches (step c rom) free (· = before) s → (∀ action, step c rom s action = none) →
      Launched c s := by
  obtain ⟨total, talks⟩ := initial_knows documented begun
  have bounded : ∀ rounds idx state, idx < 6 → documented.knows total rounds idx state →
      rounds < total := by
    intro rounds idx state within known
    have budget := known.2
    unfold Documented.left at budget
    split at budget <;> omega
  refine ⟨⟨weight total before, fun actions s executed =>
    run_length (documented.tracks total) bounded actions before talks executed⟩, fun s reached stuck => ?_⟩
  obtain ⟨still, wakes⟩ := run_knows documented talks begun reached
  exact stuck_launched documented deep total still wakes stuck

/-- Core 1 never enters `init_scheduler` with anything but the vector table, the
stack, the entry point and the timeslice of core 0, and not before core 0 is past
the handshake: no word of the conversation is taken for the timeslice. -/
theorem core1_starts_right (c : Config) (rom : BootRom Rom) (documented : Documented c rom)
    (s : State Rom) (reached : Reaches (step c rom) free (Initial rom) s) (place : Entry)
    (timeslice : Word) (core1 : s.core1 = .initScheduler place timeslice) :
    place = ⟨c.vectorTable, cpu1StackTop, c.initialPc1⟩ ∧ timeslice = c.timeslice ∧
      (s.core0 = .handed ∨ s.core0 = .done) := by
  obtain ⟨before, begun, from_before⟩ := reached.from_start
  obtain ⟨total, talks⟩ := initial_knows documented begun
  exact started_right documented (run_knows documented talks begun from_before).1 core1

end Launch

def told : Documented flash toldRom where
  zero := .zero
  one := .one
  gotVector := .vector flash.vectorTable
  gotStack := .stack flash.vectorTable cpu1StackTop
  gotEntry := .entry ⟨flash.vectorTable, cpu1StackTop, flash.initialPc1⟩
  patience _ := 0
  zero_known _ _ := .inl rfl
  zero_again := rfl
  one_known := rfl
  vector_known := rfl
  stack_known := rfl
  entry_known := rfl
  waits := by rintro _ (rfl | rfl | rfl | rfl) <;> rfl
  starts := rfl

theorem launch_completes_flash :
    (∃ bound, ∀ actions s, exec (step flash toldRom) resting actions = some s →
      actions.length ≤ bound) ∧
    ∀ s, Reaches (step flash toldRom) free (· = resting) s →
      (∀ action, step flash toldRom s action = none) → Launched flash s :=
  launch_completes flash toldRom told (by decide) resting resting_initial

theorem core1_starts_right_flash : ∃ s place timeslice,
    exec (step flash toldRom) resting dialogue = some s ∧
    s.core1 = .initScheduler place timeslice ∧
    place = ⟨flash.vectorTable, cpu1StackTop, flash.initialPc1⟩ ∧ timeslice = flash.timeslice ∧
    (s.core0 = .handed ∨ s.core0 = .done) :=
  ⟨_, _, _, rfl, rfl, core1_starts_right flash toldRom told _
    (exec_reaches dialogue (.start resting_initial) (allowed_free _ _ _) rfl) _ _ rfl⟩

end MulticoreRtos.CoreLaunch
