import Mathlib.Data.BitVec
import MulticoreRtos.Transition

/-!
How core 0 starts core 1: the `do` loop of `init_scheduler` over the inter-core
FIFOs, the boot ROM of core 1 at the other end, and `core1_entry`. The boot ROM is
not part of the sources and stays a parameter: what it answers to a word, and
when it has been told where to go on. A test of `FIFO_ST` and the access behind it
are one step, since only one core reads a FIFO and only one writes it. `wfe`
waits for the core's event register, which `sev` sets on both cores.
-/

namespace MulticoreRtos.CoreLaunch

open Transition

abbrev Word := BitVec 32

def cpu1StackTop : Word := 0x20041FFC

/-- What the linker and the caller of `init_scheduler` fix, and the depth of a FIFO. -/
structure Config where
  vectorTable : Word
  core1Entry : Word
  timeslice : Word
  depth : Nat

def Config.initialPc1 (c : Config) : Word := c.core1Entry ||| 0x1

def Config.wakeSeq (c : Config) : List Word :=
  [0, 0, 1, c.vectorTable, cpu1StackTop, c.initialPc1]

def Config.cmd (c : Config) (idx : Nat) : Word := c.wakeSeq.getD idx 0

structure Entry where
  vectorTable : Word
  sp : Word
  pc : Word
  deriving DecidableEq

structure BootRom (Rom : Type) where
  reply : Rom → Word → Word × Rom
  launch : Rom → Option Entry

inductive Launcher where
  | start (idx : Nat)
  | draining (idx : Nat)
  | drained (idx : Nat)
  | pushing (idx : Nat)
  | pushed (idx : Nat)
  | popping (idx : Nat)
  | waiting (idx : Nat)
  | handing
  | handed
  | done
  deriving DecidableEq

/-- The code of core 1 that reads the FIFO: the boot ROM or `core1_entry`. -/
inductive Reader (Rom : Type) where
  | rom (state : Rom)
  | entry (place : Entry)

inductive Responder (Rom : Type) where
  | polling (reader : Reader Rom)
  | asleep (reader : Reader Rom)
  | answering (state : Rom) (word : Word)
  | answered (state : Rom)
  | initScheduler (place : Entry) (timeslice : Word)

/-- `exchanged` and `heard` are history: the commands with the responses core 0
read, and the words with the answers the boot ROM gave. -/
structure State (Rom : Type) where
  core0 : Launcher
  core1 : Responder Rom
  toCore1 : List Word
  toCore0 : List Word
  event0 : Bool
  event1 : Bool
  exchanged : List (Word × Word)
  heard : List (Word × Word)

inductive Action where
  | core0
  | core1
  deriving DecidableEq

def multicoreFifoPushBlocking (depth : Nat) (fifo : List Word) (data : Word) : Option (List Word) :=
  if fifo.length < depth then some (fifo ++ [data]) else none

def sev {Rom : Type} (s : State Rom) : State Rom := { s with event0 := true, event1 := true }

/-- The end of a round: `do ... while (idx < 6)`. -/
def afterRound (idx : Nat) (cmd response : Word) : Launcher :=
  if (if cmd = response then idx + 1 else 0) < 6 then .start (if cmd = response then idx + 1 else 0)
  else .handing

theorem afterRound_cases (idx : Nat) (cmd response : Word) :
    (∃ next, afterRound idx cmd response = .start next) ∨ afterRound idx cmd response = .handing := by
  unfold afterRound
  by_cases again : (if cmd = response then idx + 1 else 0) < 6
  · exact .inl ⟨_, if_pos again⟩
  · exact .inr (if_neg again)

section Cores
variable {Rom : Type}

def step0 (c : Config) (s : State Rom) : Option (State Rom) :=
  match s.core0 with
  | .start idx =>
      if c.cmd idx = 0 then some { s with core0 := .draining idx }
      else some { s with core0 := .pushing idx }
  | .draining idx =>
      match s.toCore0 with
      | [] => some { s with core0 := .drained idx }
      | _ :: rest => some { s with toCore0 := rest }
  | .drained idx => some (sev { s with core0 := .pushing idx })
  | .pushing idx =>
      (multicoreFifoPushBlocking c.depth s.toCore1 (c.cmd idx)).map fun fifo =>
        { s with toCore1 := fifo, core0 := .pushed idx }
  | .pushed idx => some (sev { s with core0 := .popping idx })
  | .popping idx =>
      match s.toCore0 with
      | [] => some { s with core0 := .waiting idx }
      | response :: rest =>
          some { s with
            toCore0 := rest
            exchanged := s.exchanged ++ [(c.cmd idx, response)]
            core0 := afterRound idx (c.cmd idx) response }
  | .waiting idx =>
      if s.event0 then some { s with event0 := false, core0 := .popping idx } else none
  | .handing =>
      (multicoreFifoPushBlocking c.depth s.toCore1 c.timeslice).map fun fifo =>
        { s with toCore1 := fifo, core0 := .handed }
  | .handed => some (sev { s with core0 := .done })
  | .done => none

/-- The code that goes on once the boot ROM is in `state`. -/
def BootRom.reader (rom : BootRom Rom) (state : Rom) : Reader Rom :=
  match rom.launch state with
  | some place => .entry place
  | none => .rom state

def step1 (c : Config) (rom : BootRom Rom) (s : State Rom) : Option (State Rom) :=
  match s.core1 with
  | .polling reader =>
      match s.toCore1 with
      | [] => some { s with core1 := .asleep reader }
      | word :: rest =>
          match reader with
          | .rom state => some { s with toCore1 := rest, core1 := .answering state word }
          | .entry place =>
              -- at any other address there is code this model knows nothing about
              if place.pc = c.initialPc1 then
                some { s with toCore1 := rest, core1 := .initScheduler place word }
              else none
  | .asleep reader =>
      if s.event1 then some { s with event1 := false, core1 := .polling reader } else none
  | .answering state word =>
      (multicoreFifoPushBlocking c.depth s.toCore0 (rom.reply state word).1).map fun fifo =>
        { s with
          toCore0 := fifo
          heard := s.heard ++ [(word, (rom.reply state word).1)]
          core1 := .answered (rom.reply state word).2 }
  | .answered state => some (sev { s with core1 := .polling (rom.reader state) })
  | .initScheduler _ _ => none

def step (c : Config) (rom : BootRom Rom) (s : State Rom) : Action → Option (State Rom)
  | .core0 => step0 c s
  | .core1 => step1 c rom s

/-- Core 1 waits for a word, wherever its protocol stands. Words of an earlier
conversation may still lie in the FIFO to core 0. -/
structure Initial (rom : BootRom Rom) (s : State Rom) : Prop where
  core0 : s.core0 = .start 0
  core1 : ∃ state, rom.launch state = none ∧
    (s.core1 = .polling (.rom state) ∨ s.core1 = .asleep (.rom state))
  toCore1 : s.toCore1 = []
  exchanged : s.exchanged = []
  heard : s.heard = []

end Cores

/-! What one step of each core can do. -/
section Steps
variable {Rom : Type}

inductive Step0 (c : Config) (s : State Rom) : State Rom → Prop where
  | drain (idx : Nat) (core0 : s.core0 = .start idx) (zero : c.cmd idx = 0) :
      Step0 c s { s with core0 := .draining idx }
  | go (idx : Nat) (core0 : s.core0 = .start idx) (other : c.cmd idx ≠ 0) :
      Step0 c s { s with core0 := .pushing idx }
  | discard (idx : Nat) (core0 : s.core0 = .draining idx) (word : Word) (rest : List Word)
      (found : s.toCore0 = word :: rest) :
      Step0 c s { s with core0 := .draining idx, toCore0 := rest }
  | empty (idx : Nat) (core0 : s.core0 = .draining idx) (none_left : s.toCore0 = []) :
      Step0 c s { s with core0 := .drained idx }
  | wake (idx : Nat) (core0 : s.core0 = .drained idx) :
      Step0 c s (sev { s with core0 := .pushing idx })
  | push (idx : Nat) (core0 : s.core0 = .pushing idx) (room : s.toCore1.length < c.depth) :
      Step0 c s { s with toCore1 := s.toCore1 ++ [c.cmd idx], core0 := .pushed idx }
  | signal (idx : Nat) (core0 : s.core0 = .pushed idx) :
      Step0 c s (sev { s with core0 := .popping idx })
  | await (idx : Nat) (core0 : s.core0 = .popping idx) (none_left : s.toCore0 = []) :
      Step0 c s { s with core0 := .waiting idx }
  | pop (idx : Nat) (core0 : s.core0 = .popping idx) (response : Word) (rest : List Word)
      (found : s.toCore0 = response :: rest) :
      Step0 c s { s with
        toCore0 := rest
        exchanged := s.exchanged ++ [(c.cmd idx, response)]
        core0 := afterRound idx (c.cmd idx) response }
  | resume (idx : Nat) (core0 : s.core0 = .waiting idx) (event : s.event0 = true) :
      Step0 c s { s with event0 := false, core0 := .popping idx }
  | hand (core0 : s.core0 = .handing) (room : s.toCore1.length < c.depth) :
      Step0 c s { s with toCore1 := s.toCore1 ++ [c.timeslice], core0 := .handed }
  | finish (core0 : s.core0 = .handed) : Step0 c s (sev { s with core0 := .done })

theorem push_some {depth : Nat} {fifo after : List Word} {data : Word}
    (pushed : multicoreFifoPushBlocking depth fifo data = some after) :
    fifo.length < depth ∧ after = fifo ++ [data] := by
  unfold multicoreFifoPushBlocking at pushed
  split at pushed
  · exact ⟨‹_›, (Option.some.inj pushed).symm⟩
  · cases pushed

theorem step0_cases {c : Config} {s after : State Rom} (stepped : step0 c s = some after) :
    Step0 c s after := by
  cases core0 : s.core0 with
  | start idx =>
      simp only [step0, core0] at stepped
      split at stepped
      · cases stepped
        exact .drain idx core0 ‹_›
      · cases stepped
        exact .go idx core0 ‹_›
  | draining idx =>
      simp only [step0, core0] at stepped
      split at stepped
      · cases stepped
        exact .empty idx core0 ‹_›
      · cases stepped
        exact .discard idx core0 _ _ ‹_›
  | drained idx =>
      simp only [step0, core0] at stepped
      cases stepped
      exact .wake idx core0
  | pushing idx =>
      simp only [step0, core0] at stepped
      obtain ⟨fifo, pushed, rfl⟩ := Option.map_eq_some_iff.mp stepped
      obtain ⟨room, rfl⟩ := push_some pushed
      exact .push idx core0 room
  | pushed idx =>
      simp only [step0, core0] at stepped
      cases stepped
      exact .signal idx core0
  | popping idx =>
      simp only [step0, core0] at stepped
      split at stepped
      · cases stepped
        exact .await idx core0 ‹_›
      · cases stepped
        exact .pop idx core0 _ _ ‹_›
  | waiting idx =>
      simp only [step0, core0] at stepped
      split at stepped
      · cases stepped
        exact .resume idx core0 ‹_›
      · cases stepped
  | handing =>
      simp only [step0, core0] at stepped
      obtain ⟨fifo, pushed, rfl⟩ := Option.map_eq_some_iff.mp stepped
      obtain ⟨room, rfl⟩ := push_some pushed
      exact .hand core0 room
  | handed =>
      simp only [step0, core0] at stepped
      cases stepped
      exact .finish core0
  | done => simp only [step0, core0, reduceCtorEq] at stepped

inductive Step1 (c : Config) (rom : BootRom Rom) (s : State Rom) : State Rom → Prop where
  | sleep (reader : Reader Rom) (core1 : s.core1 = .polling reader) (none_left : s.toCore1 = []) :
      Step1 c rom s { s with toCore1 := [], core1 := .asleep reader }
  | take (state : Rom) (core1 : s.core1 = .polling (.rom state)) (word : Word) (rest : List Word)
      (found : s.toCore1 = word :: rest) :
      Step1 c rom s { s with toCore1 := rest, core1 := .answering state word }
  | enter (place : Entry) (core1 : s.core1 = .polling (.entry place)) (word : Word)
      (rest : List Word) (found : s.toCore1 = word :: rest) (ours : place.pc = c.initialPc1) :
      Step1 c rom s { s with toCore1 := rest, core1 := .initScheduler place word }
  | resume (reader : Reader Rom) (core1 : s.core1 = .asleep reader) (event : s.event1 = true) :
      Step1 c rom s { s with event1 := false, core1 := .polling reader }
  | answer (state : Rom) (word : Word) (core1 : s.core1 = .answering state word)
      (room : s.toCore0.length < c.depth) :
      Step1 c rom s { s with
        toCore0 := s.toCore0 ++ [(rom.reply state word).1]
        heard := s.heard ++ [(word, (rom.reply state word).1)]
        core1 := .answered (rom.reply state word).2 }
  | signal (state : Rom) (core1 : s.core1 = .answered state) :
      Step1 c rom s (sev { s with core1 := .polling (rom.reader state) })

theorem step1_cases {c : Config} {rom : BootRom Rom} {s after : State Rom}
    (stepped : step1 c rom s = some after) : Step1 c rom s after := by
  cases core1 : s.core1 with
  | polling reader =>
      cases there : s.toCore1 with
      | nil =>
          simp only [step1, core1, there] at stepped
          cases stepped
          exact .sleep reader core1 there
      | cons word rest =>
          cases reader with
          | rom state =>
              simp only [step1, core1, there] at stepped
              cases stepped
              exact .take state core1 word rest there
          | entry place =>
              simp only [step1, core1, there] at stepped
              split at stepped
              · cases stepped
                exact .enter place core1 word rest there ‹_›
              · cases stepped
  | asleep reader =>
      simp only [step1, core1] at stepped
      split at stepped
      · cases stepped
        exact .resume reader core1 ‹_›
      · cases stepped
  | answering state word =>
      simp only [step1, core1] at stepped
      obtain ⟨fifo, pushed, rfl⟩ := Option.map_eq_some_iff.mp stepped
      obtain ⟨room, rfl⟩ := push_some pushed
      exact .answer state word core1 room
  | answered state =>
      simp only [step1, core1] at stepped
      cases stepped
      exact .signal state core1
  | initScheduler place timeslice => simp only [step1, core1, reduceCtorEq] at stepped

end Steps

/-! Any boot ROM. -/

def echoes (c : Config) (idx : Nat) : List (Word × Word) :=
  (c.wakeSeq.take idx).map fun word => (word, word)

theorem echoes_succ (c : Config) (idx : Nat) (within : idx < 6) :
    echoes c (idx + 1) = echoes c idx ++ [(c.cmd idx, c.cmd idx)] := by
  have bound : idx < c.wakeSeq.length := within
  have here : c.cmd idx = c.wakeSeq[idx] := by simp [Config.cmd, bound]
  rw [echoes, List.take_succ_eq_append_getElem bound, List.map_append, here]
  rfl

/-- What is known of the boot ROM before round `idx`, with `rounds` behind it. -/
abbrev Knowledge (Rom : Type) := Nat → Nat → Rom → Prop

structure Tracks {Rom : Type} (c : Config) (rom : BootRom Rom) (knows : Knowledge Rom) : Prop where
  right : ∀ rounds idx state, idx < 6 → knows rounds idx state →
    (rom.reply state (c.cmd idx)).1 = c.cmd idx →
    knows (rounds + 1) (idx + 1) (rom.reply state (c.cmd idx)).2
  wrong : ∀ rounds idx state, idx < 6 → knows rounds idx state →
    (rom.reply state (c.cmd idx)).1 ≠ c.cmd idx →
    knows (rounds + 1) 0 (rom.reply state (c.cmd idx)).2

section Conversation
variable {Rom : Type} {c : Config} {rom : BootRom Rom} {knows : Knowledge Rom} {s after : State Rom}

def At (rom : BootRom Rom) (s : State Rom) (state : Rom) : Prop :=
  s.core1 = .answered state ∨ s.core1 = .polling (rom.reader state) ∨
    s.core1 = .asleep (rom.reader state)

/-- No word of the conversation is under way. -/
structure Quiet (rom : BootRom Rom) (knows : Knowledge Rom) (s : State Rom) (idx : Nat) : Prop where
  toCore1 : s.toCore1 = []
  agreed : s.heard = s.exchanged
  core1 : ∃ state, At rom s state ∧ knows s.exchanged.length idx state

/-- The word `cmd` is on its way to core 1, or being answered, or its answer is
on the way back; or `core1_entry` has taken it for its timeslice. -/
inductive UnderWay (rom : BootRom Rom) (s : State Rom) (cmd : Word) (state : Rom) : Prop where
  | sent (there : s.toCore1 = [cmd]) (back : s.toCore0 = []) (agreed : s.heard = s.exchanged)
      (core1 : At rom s state)
  | taken (there : s.toCore1 = []) (back : s.toCore0 = []) (agreed : s.heard = s.exchanged)
      (core1 : s.core1 = .answering state cmd)
  | answered (there : s.toCore1 = []) (back : s.toCore0 = [(rom.reply state cmd).1])
      (agreed : s.heard = s.exchanged ++ [(cmd, (rom.reply state cmd).1)])
      (core1 : At rom s (rom.reply state cmd).2)
  | swallowed (there : s.toCore1 = []) (back : s.toCore0 = []) (agreed : s.heard = s.exchanged)
      (place : Entry) (launched : rom.launch state = some place)
      (core1 : s.core1 = .initScheduler place cmd)

/-- The timeslice is on its way to `core1_entry` or has arrived; a boot ROM that
echoed the sequence and was not launched by it may do anything. -/
inductive Handed (c : Config) (rom : BootRom Rom) (s : State Rom) (state : Rom) : Prop where
  | sent (there : s.toCore1 = [c.timeslice]) (core1 : At rom s state)
  | arrived (place : Entry) (launched : rom.launch state = some place)
      (core1 : s.core1 = .initScheduler place c.timeslice)
  | astray (unlaunched : rom.launch state = none)

def Talks (c : Config) (rom : BootRom Rom) (knows : Knowledge Rom) (s : State Rom) : Prop :=
  match s.core0 with
  | .start idx =>
      Quiet rom knows s idx ∧ (idx = 0 ∨ s.toCore0 = []) ∧ idx < 6 ∧ echoes c idx <:+ s.exchanged
  | .draining idx => Quiet rom knows s idx ∧ idx < 6 ∧ echoes c idx <:+ s.exchanged
  | .drained idx | .pushing idx =>
      Quiet rom knows s idx ∧ s.toCore0 = [] ∧ idx < 6 ∧ echoes c idx <:+ s.exchanged
  | .pushed idx | .popping idx | .waiting idx =>
      (∃ state, knows s.exchanged.length idx state ∧ UnderWay rom s (c.cmd idx) state) ∧
        idx < 6 ∧ echoes c idx <:+ s.exchanged
  | .handing => Quiet rom knows s 6 ∧ echoes c 6 <:+ s.exchanged
  | .handed | .done =>
      (∃ state, knows s.exchanged.length 6 state ∧ Handed c rom s state) ∧
        echoes c 6 <:+ s.exchanged ∧ s.exchanged <+: s.heard

theorem talks_start {idx : Nat} (core0 : s.core0 = .start idx) :
    Talks c rom knows s ↔ Quiet rom knows s idx ∧ (idx = 0 ∨ s.toCore0 = []) ∧ idx < 6 ∧
      echoes c idx <:+ s.exchanged := by
  unfold Talks
  rw [core0]

theorem talks_draining {idx : Nat} (core0 : s.core0 = .draining idx) :
    Talks c rom knows s ↔ Quiet rom knows s idx ∧ idx < 6 ∧ echoes c idx <:+ s.exchanged := by
  unfold Talks
  rw [core0]

theorem talks_ready {idx : Nat} (core0 : s.core0 = .drained idx ∨ s.core0 = .pushing idx) :
    Talks c rom knows s ↔ Quiet rom knows s idx ∧ s.toCore0 = [] ∧ idx < 6 ∧
      echoes c idx <:+ s.exchanged := by
  unfold Talks
  rcases core0 with core0 | core0 <;> rw [core0]

theorem talks_round {idx : Nat}
    (core0 : s.core0 = .pushed idx ∨ s.core0 = .popping idx ∨ s.core0 = .waiting idx) :
    Talks c rom knows s ↔
      (∃ state, knows s.exchanged.length idx state ∧ UnderWay rom s (c.cmd idx) state) ∧
        idx < 6 ∧ echoes c idx <:+ s.exchanged := by
  unfold Talks
  rcases core0 with core0 | core0 | core0 <;> rw [core0]

theorem talks_handing (core0 : s.core0 = .handing) :
    Talks c rom knows s ↔ Quiet rom knows s 6 ∧ echoes c 6 <:+ s.exchanged := by
  unfold Talks
  rw [core0]

theorem talks_over (core0 : s.core0 = .handed ∨ s.core0 = .done) :
    Talks c rom knows s ↔ (∃ state, knows s.exchanged.length 6 state ∧ Handed c rom s state) ∧
      echoes c 6 <:+ s.exchanged ∧ s.exchanged <+: s.heard := by
  unfold Talks
  rcases core0 with core0 | core0 <;> rw [core0]

theorem initial_talks (begun : Initial rom s)
    (known : ∀ state, At rom s state → rom.launch state = none → knows 0 0 state) :
    Talks c rom knows s := by
  obtain ⟨core0, ⟨state, unlaunched, core1⟩, toCore1, exchanged, heard⟩ := begun
  have reader : rom.reader state = .rom state := by
    unfold BootRom.reader
    rw [unlaunched]
  have place : At rom s state := by
    unfold At
    rw [reader]
    exact .inr core1
  refine (talks_start core0).mpr
    ⟨⟨toCore1, heard.trans exchanged.symm, state, place, ?_⟩, .inl rfl, by omega, List.nil_suffix⟩
  rw [exchanged]
  exact known state place unlaunched

theorem cmd_first (c : Config) : c.cmd 0 = 0 := rfl

theorem Quiet.moves {idx : Nat} (quiet : Quiet rom knows s idx) (core0 : Launcher)
    (toCore0 : List Word) (event0 event1 : Bool) :
    Quiet rom knows
      { s with core0 := core0, toCore0 := toCore0, event0 := event0, event1 := event1 } idx :=
  ⟨quiet.toCore1, quiet.agreed, quiet.core1⟩

theorem UnderWay.moves {cmd : Word} {state : Rom} (underWay : UnderWay rom s cmd state)
    (core0 : Launcher) (event0 event1 : Bool) :
    UnderWay rom { s with core0 := core0, event0 := event0, event1 := event1 } cmd state := by
  cases underWay with
  | sent there back agreed core1 => exact .sent there back agreed core1
  | taken there back agreed core1 => exact .taken there back agreed core1
  | answered there back agreed core1 => exact .answered there back agreed core1
  | swallowed there back agreed place launched core1 =>
      exact .swallowed there back agreed place launched core1

theorem Handed.moves {state : Rom} (handed : Handed c rom s state) (core0 : Launcher)
    (event0 event1 : Bool) :
    Handed c rom { s with core0 := core0, event0 := event0, event1 := event1 } state := by
  cases handed with
  | sent there core1 => exact .sent there core1
  | arrived place launched core1 => exact .arrived place launched core1
  | astray unlaunched => exact .astray unlaunched

theorem underWay_response {cmd response : Word} {state : Rom} {rest : List Word}
    (underWay : UnderWay rom s cmd state) (found : s.toCore0 = response :: rest) :
    s.toCore1 = [] ∧ rest = [] ∧ response = (rom.reply state cmd).1 ∧
      s.heard = s.exchanged ++ [(cmd, response)] ∧ At rom s (rom.reply state cmd).2 := by
  cases underWay with
  | sent _ back => rw [back] at found; cases found
  | taken _ back => rw [back] at found; cases found
  | swallowed _ back => rw [back] at found; cases found
  | answered there back agreed core1 =>
      rw [back] at found
      cases found
      exact ⟨there, rfl, rfl, agreed, core1⟩

theorem talks_pop (tracks : Tracks c rom knows) {idx : Nat} {response : Word} {rest : List Word}
    (core0 : s.core0 = .popping idx) (talks : Talks c rom knows s)
    (found : s.toCore0 = response :: rest) :
    Talks c rom knows { s with
      toCore0 := rest
      exchanged := s.exchanged ++ [(c.cmd idx, response)]
      core0 := afterRound idx (c.cmd idx) response } := by
  obtain ⟨⟨state, known, underWay⟩, within, said⟩ := (talks_round (.inr (.inl core0))).mp talks
  obtain ⟨there, rfl, answer, agreed, place⟩ := underWay_response underWay found
  have longer : (s.exchanged ++ [(c.cmd idx, response)]).length = s.exchanged.length + 1 := by
    rw [List.length_append, List.length_singleton]
  by_cases same : c.cmd idx = response
  · have next := tracks.right _ idx state within known (answer.symm.trans same.symm)
    rw [← longer] at next
    have grown : echoes c (idx + 1) <:+ s.exchanged ++ [(c.cmd idx, response)] := by
      obtain ⟨earlier, whole⟩ := said
      refine ⟨earlier, ?_⟩
      rw [echoes_succ c idx within, ← same, ← List.append_assoc, whole]
    by_cases last : idx + 1 < 6
    · have goes : afterRound idx (c.cmd idx) response = .start (idx + 1) := by
        simp only [afterRound, if_pos same, if_pos last]
      exact (talks_start goes).mpr ⟨⟨there, agreed, _, place, next⟩, .inr rfl, last, grown⟩
    · obtain rfl : idx = 5 := by omega
      have goes : afterRound 5 (c.cmd 5) response = .handing := by
        simp only [afterRound, if_pos same, if_neg last]
      exact (talks_handing goes).mpr ⟨⟨there, agreed, _, place, next⟩, grown⟩
  · have next := tracks.wrong _ idx state within known fun equal => same (equal.symm.trans answer.symm)
    rw [← longer] at next
    have goes : afterRound idx (c.cmd idx) response = .start 0 := by
      simp only [afterRound, if_neg same, if_pos (show 0 < 6 by decide)]
    exact (talks_start goes).mpr
      ⟨⟨there, agreed, _, place, next⟩, .inl rfl, by omega, List.nil_suffix⟩

theorem talks_step0 (tracks : Tracks c rom knows) (talks : Talks c rom knows s)
    (stepped : Step0 c s after) : Talks c rom knows after := by
  cases stepped with
  | drain idx core0 zero =>
      obtain ⟨quiet, _, rest⟩ := (talks_start core0).mp talks
      exact (talks_draining rfl).mpr ⟨quiet.moves _ _ _ _, rest⟩
  | go idx core0 other =>
      obtain ⟨quiet, back, rest⟩ := (talks_start core0).mp talks
      have empty : s.toCore0 = [] := by
        apply back.resolve_left
        rintro rfl
        exact other (cmd_first c)
      exact (talks_ready (.inr rfl)).mpr ⟨quiet.moves _ _ _ _, empty, rest⟩
  | discard idx core0 word rest found =>
      obtain ⟨quiet, rest⟩ := (talks_draining core0).mp talks
      exact (talks_draining rfl).mpr ⟨quiet.moves _ _ _ _, rest⟩
  | empty idx core0 none_left =>
      obtain ⟨quiet, rest⟩ := (talks_draining core0).mp talks
      exact (talks_ready (.inl rfl)).mpr ⟨quiet.moves _ _ _ _, none_left, rest⟩
  | wake idx core0 =>
      obtain ⟨quiet, back, rest⟩ := (talks_ready (.inl core0)).mp talks
      exact (talks_ready (.inr rfl)).mpr ⟨quiet.moves _ _ _ _, back, rest⟩
  | push idx core0 room =>
      obtain ⟨⟨there, agreed, state, place, known⟩, back, rest⟩ := (talks_ready (.inr core0)).mp talks
      refine (talks_round (.inl rfl)).mpr ⟨⟨state, known, .sent ?_ back agreed place⟩, rest⟩
      simp only [there, List.nil_append]
  | signal idx core0 =>
      obtain ⟨⟨state, known, underWay⟩, rest⟩ := (talks_round (.inl core0)).mp talks
      exact (talks_round (.inr (.inl rfl))).mpr ⟨⟨state, known, underWay.moves _ _ _⟩, rest⟩
  | await idx core0 none_left =>
      obtain ⟨⟨state, known, underWay⟩, rest⟩ := (talks_round (.inr (.inl core0))).mp talks
      exact (talks_round (.inr (.inr rfl))).mpr ⟨⟨state, known, underWay.moves _ _ _⟩, rest⟩
  | pop idx core0 response rest found => exact talks_pop tracks core0 talks found
  | resume idx core0 event =>
      obtain ⟨⟨state, known, underWay⟩, rest⟩ := (talks_round (.inr (.inr core0))).mp talks
      exact (talks_round (.inr (.inl rfl))).mpr ⟨⟨state, known, underWay.moves _ _ _⟩, rest⟩
  | hand core0 room =>
      obtain ⟨⟨there, agreed, state, place, known⟩, said⟩ := (talks_handing core0).mp talks
      refine (talks_over (.inl rfl)).mpr ⟨⟨state, known, .sent ?_ place⟩, said, ?_⟩
      · simp only [there, List.nil_append]
      · rw [agreed]
  | finish core0 =>
      obtain ⟨⟨state, known, handed⟩, rest⟩ := (talks_over (.inl core0)).mp talks
      exact (talks_over (.inr rfl)).mpr ⟨⟨state, known, handed.moves _ _ _⟩, rest⟩

theorem step1_keeps (stepped : Step1 c rom s after) :
    after.core0 = s.core0 ∧ after.exchanged = s.exchanged ∧ s.heard <+: after.heard := by
  cases stepped with
  | answer state word core1 room => exact ⟨rfl, rfl, List.prefix_append _ _⟩
  | _ => exact ⟨rfl, rfl, List.prefix_rfl⟩

theorem answering_step1 {state : Rom} {word : Word} (core1 : s.core1 = .answering state word)
    (stepped : Step1 c rom s after) :
    { s with
      toCore0 := s.toCore0 ++ [(rom.reply state word).1]
      heard := s.heard ++ [(word, (rom.reply state word).1)]
      core1 := .answered (rom.reply state word).2 } = after := by
  cases stepped with
  | answer other said same room =>
      rw [core1] at same
      cases same
      rfl
  | sleep _ other => rw [core1] at other; cases other
  | take _ other => rw [core1] at other; cases other
  | enter _ other => rw [core1] at other; cases other
  | resume _ other => rw [core1] at other; cases other
  | signal _ other => rw [core1] at other; cases other

theorem started_stays {place : Entry} {timeslice : Word}
    (core1 : s.core1 = .initScheduler place timeslice) : ¬ Step1 c rom s after := by
  intro stepped
  cases stepped with
  | sleep _ other => rw [core1] at other; cases other
  | take _ other => rw [core1] at other; cases other
  | enter _ other => rw [core1] at other; cases other
  | resume _ other => rw [core1] at other; cases other
  | answer _ _ other => rw [core1] at other; cases other
  | signal _ other => rw [core1] at other; cases other

/-- Without a word core 1 can only fall asleep and wake up; with one, only the
code behind its answer takes it. -/
theorem at_step1 {state : Rom} (place : At rom s state) (stepped : Step1 c rom s after) :
    (At rom after state ∧ after.toCore1 = s.toCore1 ∧ after.toCore0 = s.toCore0 ∧
      after.heard = s.heard) ∨
    ∃ word rest, s.toCore1 = word :: rest ∧ after.toCore1 = rest ∧ after.toCore0 = s.toCore0 ∧
      after.heard = s.heard ∧
      ((rom.launch state = none ∧ after.core1 = .answering state word) ∨
        ∃ entry, rom.launch state = some entry ∧ after.core1 = .initScheduler entry word) := by
  have reads : ∀ reader, s.core1 = .polling reader ∨ s.core1 = .asleep reader →
      reader = rom.reader state := by
    intro reader core1
    rcases place with same | same | same <;> rcases core1 with other | other <;>
      · rw [same] at other
        cases other <;> rfl
  cases stepped with
  | sleep reader core1 none_left =>
      exact .inl ⟨.inr (.inr (congrArg _ (reads reader (.inl core1)))), none_left.symm, rfl, rfl⟩
  | take other core1 word rest found =>
      have same := reads _ (.inl core1)
      refine .inr ⟨word, rest, found, rfl, rfl, rfl, .inl ?_⟩
      unfold BootRom.reader at same
      split at same
      · cases same
      · cases same
        exact ⟨‹_›, rfl⟩
  | enter entry core1 word rest found ours =>
      have same := reads _ (.inl core1)
      refine .inr ⟨word, rest, found, rfl, rfl, rfl, .inr ⟨entry, ?_, rfl⟩⟩
      unfold BootRom.reader at same
      split at same
      · cases same
        assumption
      · cases same
  | resume reader core1 event =>
      exact .inl ⟨.inr (.inl (congrArg _ (reads reader (.inr core1)))), rfl, rfl, rfl⟩
  | answer other word core1 room =>
      rcases place with same | same | same <;> rw [same] at core1 <;> cases core1
  | signal other core1 =>
      rcases place with same | same | same
      · rw [same] at core1
        cases core1
        exact .inl ⟨.inr (.inl rfl), rfl, rfl, rfl⟩
      · rw [same] at core1
        cases core1
      · rw [same] at core1
        cases core1

theorem quiet_step1 {idx : Nat} (quiet : Quiet rom knows s idx) (stepped : Step1 c rom s after) :
    Quiet rom knows after idx ∧ after.toCore0 = s.toCore0 := by
  obtain ⟨there, agreed, state, place, known⟩ := quiet
  have exchanged := (step1_keeps stepped).2.1
  rcases at_step1 place stepped with ⟨still, same, back, heard⟩ | ⟨word, rest, found, _⟩
  · refine ⟨⟨same.trans there, ?_, state, still, ?_⟩, back⟩
    · rw [heard, exchanged, agreed]
    · rw [exchanged]
      exact known
  · rw [there] at found
    cases found

theorem underWay_step1 {cmd : Word} {state : Rom} (underWay : UnderWay rom s cmd state)
    (stepped : Step1 c rom s after) : UnderWay rom after cmd state := by
  have exchanged := (step1_keeps stepped).2.1
  cases underWay with
  | sent there back agreed place =>
      rcases at_step1 place stepped with ⟨still, same, same_back, heard⟩ |
        ⟨word, rest, found, left, same_back, heard, taken⟩
      · exact .sent (same.trans there) (same_back.trans back) (by rw [heard, exchanged, agreed]) still
      · rw [there] at found
        cases found
        rcases taken with ⟨_, core1⟩ | ⟨entry, launched, core1⟩
        · exact .taken left (same_back.trans back) (by rw [heard, exchanged, agreed]) core1
        · exact .swallowed left (same_back.trans back) (by rw [heard, exchanged, agreed]) entry
            launched core1
  | taken there back agreed core1 =>
      obtain rfl := answering_step1 core1 stepped
      refine .answered there ?_ ?_ (.inl rfl)
      · simp only [back, List.nil_append]
      · simp only [agreed]
  | answered there back agreed place =>
      rcases at_step1 place stepped with ⟨still, same, same_back, heard⟩ | ⟨word, rest, found, _⟩
      · exact .answered (same.trans there) (same_back.trans back) (by rw [heard, exchanged, agreed])
          still
      · rw [there] at found
        cases found
  | swallowed there back agreed place launched core1 =>
      exact absurd stepped (started_stays core1)

theorem handed_step1 {state : Rom} (handed : Handed c rom s state) (stepped : Step1 c rom s after) :
    Handed c rom after state := by
  cases handed with
  | sent there place =>
      rcases at_step1 place stepped with ⟨still, same, _⟩ | ⟨word, rest, found, _, _, _, taken⟩
      · exact .sent (same.trans there) still
      · rw [there] at found
        cases found
        rcases taken with ⟨unlaunched, _⟩ | ⟨entry, launched, core1⟩
        · exact .astray unlaunched
        · exact .arrived entry launched core1
  | arrived place launched core1 =>
      exact absurd stepped (started_stays core1)
  | astray unlaunched => exact .astray unlaunched

theorem talks_step1 (talks : Talks c rom knows s) (stepped : Step1 c rom s after) :
    Talks c rom knows after := by
  obtain ⟨same0, same, grown⟩ := step1_keeps stepped
  have round : ∀ idx, (∃ state, knows s.exchanged.length idx state ∧ UnderWay rom s (c.cmd idx) state) →
      ∃ state, knows after.exchanged.length idx state ∧ UnderWay rom after (c.cmd idx) state := by
    rintro idx ⟨state, known, underWay⟩
    exact ⟨state, same ▸ known, underWay_step1 underWay stepped⟩
  have past : (∃ state, knows s.exchanged.length 6 state ∧ Handed c rom s state) →
      ∃ state, knows after.exchanged.length 6 state ∧ Handed c rom after state := by
    rintro ⟨state, known, handed⟩
    exact ⟨state, same ▸ known, handed_step1 handed stepped⟩
  cases core0 : s.core0 with
  | start idx =>
      obtain ⟨quiet, back, rest⟩ := (talks_start core0).mp talks
      obtain ⟨still, same_back⟩ := quiet_step1 quiet stepped
      exact (talks_start (same0.trans core0)).mpr ⟨still, same_back ▸ back, same ▸ rest⟩
  | draining idx =>
      obtain ⟨quiet, rest⟩ := (talks_draining core0).mp talks
      exact (talks_draining (same0.trans core0)).mpr ⟨(quiet_step1 quiet stepped).1, same ▸ rest⟩
  | drained idx =>
      obtain ⟨quiet, back, rest⟩ := (talks_ready (.inl core0)).mp talks
      obtain ⟨still, same_back⟩ := quiet_step1 quiet stepped
      exact (talks_ready (.inl (same0.trans core0))).mpr ⟨still, same_back.trans back, same ▸ rest⟩
  | pushing idx =>
      obtain ⟨quiet, back, rest⟩ := (talks_ready (.inr core0)).mp talks
      obtain ⟨still, same_back⟩ := quiet_step1 quiet stepped
      exact (talks_ready (.inr (same0.trans core0))).mpr ⟨still, same_back.trans back, same ▸ rest⟩
  | pushed idx =>
      obtain ⟨underWay, rest⟩ := (talks_round (.inl core0)).mp talks
      exact (talks_round (.inl (same0.trans core0))).mpr ⟨round idx underWay, same ▸ rest⟩
  | popping idx =>
      obtain ⟨underWay, rest⟩ := (talks_round (.inr (.inl core0))).mp talks
      exact (talks_round (.inr (.inl (same0.trans core0)))).mpr ⟨round idx underWay, same ▸ rest⟩
  | waiting idx =>
      obtain ⟨underWay, rest⟩ := (talks_round (.inr (.inr core0))).mp talks
      exact (talks_round (.inr (.inr (same0.trans core0)))).mpr ⟨round idx underWay, same ▸ rest⟩
  | handing =>
      obtain ⟨quiet, said⟩ := (talks_handing core0).mp talks
      exact (talks_handing (same0.trans core0)).mpr ⟨(quiet_step1 quiet stepped).1, same ▸ said⟩
  | handed =>
      obtain ⟨handed, said, agreed⟩ := (talks_over (.inl core0)).mp talks
      exact (talks_over (.inl (same0.trans core0))).mpr
        ⟨past handed, same ▸ said, (same ▸ agreed).trans grown⟩
  | done =>
      obtain ⟨handed, said, agreed⟩ := (talks_over (.inr core0)).mp talks
      exact (talks_over (.inr (same0.trans core0))).mpr
        ⟨past handed, same ▸ said, (same ▸ agreed).trans grown⟩

theorem talks_step (tracks : Tracks c rom knows) (action : Action) (talks : Talks c rom knows s)
    (stepped : step c rom s action = some after) : Talks c rom knows after := by
  cases action with
  | core0 => exact talks_step0 tracks talks (step0_cases stepped)
  | core1 => exact talks_step1 talks (step1_cases stepped)

end Conversation

/-! Any boot ROM. -/
section AnyRom
variable {Rom : Type}

def Left (s : State Rom) : Prop := s.core0 = .handing ∨ s.core0 = .handed ∨ s.core0 = .done

instance (s : State Rom) : Decidable (Left s) := inferInstanceAs (Decidable (_ ∨ _ ∨ _))

theorem run_talks (c : Config) (rom : BootRom Rom) {s : State Rom}
    (reached : Reaches (step c rom) free (Initial rom) s) : Talks c rom (fun _ _ _ => True) s :=
  reached.invariant (Talks c rom fun _ _ _ => True)
    (fun _ begun => initial_talks begun fun _ _ _ => trivial)
    fun _ action _ talks _ stepped => talks_step ⟨by simp, by simp⟩ action talks stepped

theorem UnderWay.one_word {rom : BootRom Rom} {s : State Rom} {cmd : Word} {state : Rom}
    (underWay : UnderWay rom s cmd state) : s.toCore1.length ≤ 1 := by
  cases underWay with
  | sent there => rw [there]; exact le_rfl
  | taken there => rw [there]; exact Nat.zero_le 1
  | answered there => rw [there]; exact Nat.zero_le 1
  | swallowed there => rw [there]; exact Nat.zero_le 1

theorem one_word_until_left {c : Config} {rom : BootRom Rom} {knows : Knowledge Rom} {s : State Rom}
    (talks : Talks c rom knows s) (stays : ¬ Left s) : s.toCore1.length ≤ 1 := by
  have empty : ∀ idx, Quiet rom knows s idx → s.toCore1.length ≤ 1 := by
    intro idx quiet
    rw [quiet.toCore1]
    exact Nat.zero_le 1
  cases core0 : s.core0 with
  | start idx => exact empty idx ((talks_start core0).mp talks).1
  | draining idx => exact empty idx ((talks_draining core0).mp talks).1
  | drained idx => exact empty idx ((talks_ready (.inl core0)).mp talks).1
  | pushing idx => exact empty idx ((talks_ready (.inr core0)).mp talks).1
  | pushed idx =>
      obtain ⟨⟨_, _, underWay⟩, _⟩ := (talks_round (.inl core0)).mp talks
      exact underWay.one_word
  | popping idx =>
      obtain ⟨⟨_, _, underWay⟩, _⟩ := (talks_round (.inr (.inl core0))).mp talks
      exact underWay.one_word
  | waiting idx =>
      obtain ⟨⟨_, _, underWay⟩, _⟩ := (talks_round (.inr (.inr core0))).mp talks
      exact underWay.one_word
  | handing => exact absurd (.inl core0) stays
  | handed => exact absurd (.inr (.inl core0)) stays
  | done => exact absurd (.inr (.inr core0)) stays

/-- Whatever the boot ROM answers, whatever an earlier conversation left in the
FIFO and whoever moves when: core 0 leaves the loop only behind six rounds in a row
in which core 1 took exactly the words of the sequence and answered each by itself,
and at that moment the two cores have seen the same conversation. Until then at most
one word is on its way to core 1. -/
theorem conversation_agrees (c : Config) (rom : BootRom Rom) (s : State Rom)
    (reached : Reaches (step c rom) free (Initial rom) s) :
    (Left s → ∃ earlier later,
      s.heard = earlier ++ c.wakeSeq.map (fun word => (word, word)) ++ later ∧
      s.exchanged = earlier ++ c.wakeSeq.map (fun word => (word, word))) ∧
    (s.core0 = .handing → s.heard = s.exchanged) ∧
    (¬ Left s → s.toCore1.length ≤ 1) := by
  have talks := run_talks c rom reached
  have agreed (core0 : s.core0 = .handing) : s.heard = s.exchanged :=
    ((talks_handing core0).mp talks).1.agreed
  refine ⟨fun left => ?_, agreed, one_word_until_left talks⟩
  have both : echoes c 6 <:+ s.exchanged ∧ s.exchanged <+: s.heard := by
    rcases left with core0 | past
    · exact ⟨((talks_handing core0).mp talks).2, agreed core0 ▸ List.prefix_rfl⟩
    · exact ((talks_over past).mp talks).2
  obtain ⟨⟨earlier, said⟩, later, heard⟩ := both
  exact ⟨earlier, later, by rw [← heard, ← said]; rfl, said.symm⟩

end AnyRom

/-! A boot ROM that keeps what it is told. -/

inductive Told where
  | fresh
  | zero
  | one
  | vector (table : Word)
  | stack (table sp : Word)
  | entry (place : Entry)
  deriving DecidableEq

def toldRom : BootRom Told where
  reply state word :=
    if word = 0 then (0, .zero) else
      match state with
      | .zero => if word = 1 then (1, .one) else (0, .fresh)
      | .one => (word, .vector word)
      | .vector table => (word, .stack table word)
      | .stack table sp => (word, .entry ⟨table, sp, word⟩)
      | .fresh | .entry _ => (0, .fresh)
  launch
    | .entry place => some place
    | _ => none

def flash : Config := ⟨0x10000100, 0x10000400, 10, 4⟩

def resting : State Told := ⟨.start 0, .asleep (.rom .fresh), [], [7], false, false, [], []⟩

theorem resting_initial : Initial toldRom resting :=
  ⟨rfl, ⟨.fresh, rfl, .inr rfl⟩, rfl, rfl, rfl⟩

def dialogue : List Action :=
  [(Action.core0, 9), (.core1, 4), (.core0, 10), (.core1, 3), (.core0, 8), (.core1, 3), (.core0, 8),
    (.core1, 3), (.core0, 8), (.core1, 3), (.core0, 8), (.core1, 3), (.core0, 4), (.core1, 1)].flatMap
    fun turn => List.replicate turn.2 turn.1

theorem conversation_agrees_flash : ∃ s, exec (step flash toldRom) resting dialogue = some s ∧
    ∃ earlier later,
      s.heard = earlier ++ flash.wakeSeq.map (fun word => (word, word)) ++ later ∧
      s.exchanged = earlier ++ flash.wakeSeq.map (fun word => (word, word)) :=
  ⟨_, rfl, (conversation_agrees flash toldRom _
    (exec_reaches dialogue (.start resting_initial) (allowed_free _ _ _) rfl)).1 (by decide)⟩

end MulticoreRtos.CoreLaunch
