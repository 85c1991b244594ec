import MulticoreRtos.Shell

/-!
The loop of `interpreter`, turn after turn on what the UART has received, with the
time of `hw/timer.c`. It answers as the shell does as long as each line is split
where the shell splits it and no word is taken for another with the same hash.
-/

namespace MulticoreRtos.Interpreter

open UartTransmit (Byte)
open LineInput LineEcho CString Shell

def getRawTimeMs (r : Readings) : BitVec 32 := BitVec.ofNat 32 (RawTime.answer .rawTimeMs r.timehr r.timelr)

def getMstime (systimeStart : BitVec 32) (r : Readings) : BitVec 32 := getRawTimeMs r - systimeStart

/-- `sent` is what `uart_out_byte` was handed, and `slept` the arguments of `sleep`. -/
structure Session where
  memory : Nat → Byte
  systimeStart : BitVec 32
  sent : List Byte
  slept : List Nat

def diagnostics (systimeStart : BitVec 32) (r : Readings) : Diagnostics where
  mstime := (getMstime systimeStart r).toNat
  cpu0Idle := r.cpu0Idle
  cpu1Idle := r.cpu1Idle
  runningThreadCnt := r.runningThreadCnt
  activeThreadCnt := r.activeThreadCnt
  lifetimeThreadCnt := r.lifetimeThreadCnt
  heap := r.heap

def afterCommand (r : Readings) (s : Session) (o : Outcome) : Session where
  memory := o.memory
  systimeStart := if o.cleared then getRawTimeMs r else s.systimeStart
  sent := s.sent ++ o.output
  slept := s.slept ++ o.slept.toList

/-- One turn of the loop, and what it has left unread; `none` when it waits in
`uart_in_string`. -/
def turn (r : Readings) (s : Session) (received : List Byte) :
    Except Fault (Session × Option (List Byte)) :=
  match uartInString (cleared s.memory) 0 buffsize received with
  -- the keys so far are in the buffer, and their echo is out
  | .reading e => .ok ({ s with memory := e.memory, sent := s.sent ++ ascii "> " ++ e.echo }, none)
  | .returned e unread => do
      let s := { s with memory := e.memory, sent := s.sent ++ ascii "> " ++ e.echo }
      match ← processLine (diagnostics s.systimeStart r) e.memory with
      -- `continue`
      | none => .ok (s, some unread)
      | some o => .ok (afterCommand r s o, some unread)

def session : List Readings → Session → List Byte → Except Fault (Session × List Byte)
  | [], s, received => .ok (s, received)
  | r :: later, s, received => do
      match ← turn r s received with
      | (s, none) => .ok (s, [])
      | (s, some unread) => session later s unread

def begun (memory : Nat → Byte) : Session :=
  ⟨memory, 0, ascii "\x1B[2J\x1B[H" ++ ascii "Enter a command:\r\n", []⟩

/-! Texts that `snprintf` can print whole. -/

structure Text (bound : Nat) (text : List Byte) : Prop where
  nonzero : ∀ item ∈ text, item ≠ 0
  short : text.length ≤ bound

section Texts
variable {bound other : Nat} {text more : List Byte}

theorem Text.append (first : Text bound text) (second : Text other more) :
    Text (bound + other) (text ++ more) := by
  refine ⟨fun item member => ?_, ?_⟩
  · rcases List.mem_append.mp member with early | late
    · exact first.nonzero item early
    · exact second.nonzero item late
  · rw [List.length_append]
    exact Nat.add_le_add first.short second.short

theorem literal_text (bound : Nat) (literal : String)
    (plain : (literal.toList.all fun c => decide (BitVec.ofNat 8 c.toNat ≠ 0)) = true ∧
      literal.toList.length ≤ bound) : Text bound (ascii literal) := by
  refine ⟨fun item member => ?_, ?_⟩
  · obtain ⟨c, listed, rfl⟩ := List.mem_map.mp member
    exact of_decide_eq_true (List.all_eq_true.mp plain.1 c listed)
  · rw [ascii, List.length_map]
    exact plain.2

theorem decimal_text (word : Nat) : Text 11 (decimal word) := by
  refine ⟨fun item member => ?_, decimal_length word⟩
  rcases decimal_digits member with sign | is_digit
  · rw [sign]
    decide
  · exact (digit_plain is_digit).2.2.2

theorem printBuffer_eq (o : Outcome) (printable : Text bound text) (room : bound < buffsize) :
    printBuffer o text =
      .ok { o with memory := snprintf o.memory buffsize text, output := o.output ++ text } := by
  have short := printable.short
  have whole : min text.length (buffsize - 1) = text.length := Nat.min_eq_left (by omega)
  have string : IsString (snprintf o.memory buffsize text) 0 text := by
    refine ⟨fun index here => ?_, printable.nonzero, ?_⟩
    · simp only [snprintf, whole, Nat.zero_add, if_pos here]
      exact List.getD_eq_getElem _ _ here
    · simp only [snprintf, whole, Nat.zero_add, Nat.lt_irrefl, if_false, if_true]
  rw [printBuffer]
  simp only [string.read (show 0 + text.length < buffsize by omega), inside, bind, Except.bind]

end Texts

/-- Nothing but a name itself has the hash of the name. -/
def Distinct (names : List (List Byte)) (word : List Byte) : Prop :=
  ∀ name ∈ names, hash word = hash name → word = name

instance (names : List (List Byte)) (word : List Byte) : Decidable (Distinct names word) :=
  inferInstanceAs (Decidable (∀ name ∈ names, hash word = hash name → word = name))

def commands : List (List Byte) := [ascii "time", ascii "stats", ascii "sleep", ascii "help"]

structure Obeys (r : Readings) (started : Nat) (asked : Request) (o : Outcome) : Prop where
  output : o.output = reply r started asked
  cleared : o.cleared = decide (asked = .reset)
  slept : o.slept = asked.nap.map fun ms => (BitVec.ofInt 32 ms).toNat

section Commands
variable {r : Readings} {systimeStart : BitVec 32} {started : Nat} {c : Command} {text : List Byte}

theorem distinct_iff {names : List (List Byte)} {word name : List Byte} {value : BitVec 32}
    (distinct : Distinct names word) (listed : name ∈ names) (named : hash name = value) :
    hash word = value ↔ word = name := by
  rw [← named]
  exact ⟨distinct name listed, congrArg hash⟩

theorem rawTimeMs_eq (r : Readings) : getRawTimeMs r = BitVec.ofNat 32 r.now := by
  rw [getRawTimeMs, RawTime.answer, ← Readings.now]
  apply BitVec.eq_of_toNat_eq
  simp

theorem mstime_shown (same : systimeStart = BitVec.ofNat 32 started) :
    decimal (getMstime systimeStart r).toNat =
      ascii (toString (((r.now : Int) - started).bmod (2 ^ 32))) := by
  have word : (getMstime systimeStart r).toInt = ((r.now : Int) - started).bmod (2 ^ 32) := by
    rw [getMstime, rawTimeMs_eq, same, BitVec.toInt_sub, BitVec.toInt_ofNat', BitVec.toInt_ofNat',
      ← Int.sub_bmod]
  rw [decimal, BitVec.ofNat_toNat, BitVec.setWidth_eq, word]

theorem int_shown {ms : Int} (low : -2 ^ 31 ≤ ms) (high : ms < 2 ^ 31) :
    decimal (BitVec.ofInt 32 ms).toNat = ascii (toString ms) := by
  have word : (BitVec.ofInt 32 ms).toInt = ms := by
    rw [BitVec.toInt_ofInt]
    exact Int.bmod_eq_of_le (by omega) (by omega)
  rw [decimal, BitVec.ofNat_toNat, BitVec.setWidth_eq, word]

theorem readInt_range {ms : Int} (read : readInt text = some ms) : -2 ^ 31 ≤ ms ∧ ms < 2 ^ 31 := by
  simp only [readInt] at read
  split at read
  · cases read
  · split at read
    · cases read
      omega
    · cases read
      omega

theorem time_obeys (same : systimeStart = BitVec.ofNat 32 started)
    (string : IsString c.memory c.args text) (room : c.args + text.length < buffsize)
    (fits : (firstWord text).length < sizeofS) (distinct : Distinct [ascii "reset"] (firstWord text)) :
    ∃ o, time (diagnostics systimeStart r) c = .ok o ∧ Obeys r started (timeRequest text) o := by
  have word := string.word white (by decide) room
  rw [← firstWord] at word
  rw [time, word, timeRequest]
  simp only [inside, bind, Except.bind]
  by_cases nothing : firstWord text = []
  · have printable := ((literal_text 15 "System uptime: " (by decide)).append
      (decimal_text (getMstime systimeStart r).toNat)).append (literal_text 5 " ms\r\n" (by decide))
    rw [if_pos nothing, if_pos nothing]
    refine ⟨_, printBuffer_eq _ printable (by decide), ?_, rfl, rfl⟩
    simp only [quiet, List.nil_append, reply, ← mstime_shown same, diagnostics]
  · rw [if_neg nothing, if_neg nothing, if_neg (show ¬ sizeofS < (firstWord text).length + 1 by omega)]
    have known := distinct_iff distinct (List.mem_singleton.mpr rfl)
      (show hash (ascii "reset") = resetHash by decide)
    by_cases is_reset : firstWord text = ascii "reset"
    · rw [if_pos is_reset, if_pos (known.mpr is_reset)]
      exact ⟨_, rfl, rfl, rfl, rfl⟩
    · rw [if_neg is_reset, if_neg (mt known.mp is_reset)]
      exact ⟨_, rfl, rfl, rfl, rfl⟩

theorem sleep_obeys (string : IsString c.memory c.args text) (room : c.args + text.length < buffsize) :
    ∃ o, sleep c = .ok o ∧ Obeys r started (sleepRequest text) o := by
  rw [sleep, scanInt_eq string room, sleepRequest]
  cases read : readInt text with
  | none => exact ⟨_, rfl, rfl, rfl, rfl⟩
  | some ms =>
      obtain ⟨low, high⟩ := readInt_range read
      have printable := ((literal_text 14 "Sleeping for: " (by decide)).append
        (decimal_text (BitVec.ofInt 32 ms).toNat)).append (literal_text 6 " ms.\r\n" (by decide))
      have printed := printBuffer_eq (quiet c.memory) printable (by decide)
      simp only [inside, bind, Except.bind, printed]
      refine ⟨_, rfl, ?_, rfl, rfl⟩
      simp only [quiet, List.nil_append, int_shown low high]
      rfl

theorem tenths_text (idle : Nat) : Text 23 (decimal (idle / 10) ++ ascii "." ++ decimal (idle % 10)) :=
  ((decimal_text _).append (literal_text 1 "." (by decide))).append (decimal_text _)

theorem stats_obeys (c : Command) :
    ∃ o, stats (diagnostics systimeStart r) c = .ok o ∧ Obeys r started .stats o := by
  have cpu := ((((literal_text 22 "CPU0 idle percentage: " (by decide)).append
    (tenths_text r.cpu0Idle)).append
    (literal_text 24 "\r\nCPU1 idle percentage: " (by decide))).append
    (tenths_text r.cpu1Idle)).append (literal_text 2 "\r\n" (by decide))
  have threads := ((((((literal_text 19 "\r\nRunning Threads: " (by decide)).append
    (decimal_text r.runningThreadCnt)).append
    (literal_text 18 "\r\nActive Threads: " (by decide))).append
    (decimal_text r.activeThreadCnt)).append
    (literal_text 20 "\r\nLifetime Threads: " (by decide))).append
    (decimal_text r.lifetimeThreadCnt)).append (literal_text 2 "\r\n" (by decide))
  have heap := ((((((literal_text 13 "\r\nHeap size: " (by decide)).append
    (decimal_text r.heap.size)).append
    (literal_text 13 "\r\nHeap used: " (by decide))).append
    (decimal_text r.heap.used)).append
    (literal_text 13 "\r\nHeap free: " (by decide))).append
    (decimal_text r.heap.free)).append (literal_text 2 "\r\n" (by decide))
  have first (o : Outcome) := printBuffer_eq o cpu (by decide)
  have second (o : Outcome) := printBuffer_eq o threads (by decide)
  have third (o : Outcome) := printBuffer_eq o heap (by decide)
  simp only [stats, diagnostics, bind, Except.bind, first, second, third]
  exact ⟨_, rfl, rfl, rfl, rfl⟩

/-- The `switch` on the hash finds the command that has the name. -/
theorem command_obeys (same : systimeStart = BitVec.ofNat 32 started) {line : List Byte}
    (run : IsString c.memory c.cmd (firstRun line)) (inside_run : c.cmd + (firstRun line).length < buffsize)
    (string : IsString c.memory c.args (afterRun line))
    (room : c.args + (afterRun line).length < buffsize)
    (distinct : Distinct commands (firstRun line))
    (word : firstRun line = ascii "time" → (firstWord (afterRun line)).length < sizeofS ∧
      Distinct [ascii "reset"] (firstWord (afterRun line))) :
    ∃ o, command (diagnostics systimeStart r) c = .ok o ∧ Obeys r started (request line) o := by
  -- each case of the `switch` is the test of a name
  have is_time := distinct_iff distinct (by decide) (show hash (ascii "time") = timeHash by decide)
  have is_stats := distinct_iff distinct (by decide) (show hash (ascii "stats") = statsHash by decide)
  have is_sleep := distinct_iff distinct (by decide) (show hash (ascii "sleep") = sleepHash by decide)
  have is_help := distinct_iff distinct (by decide) (show hash (ascii "help") = helpHash by decide)
  rw [command, run.read inside_run, request]
  simp only [inside, bind, Except.bind, is_time, is_stats, is_sleep, is_help]
  split
  next asks => exact time_obeys same string room (word asks).1 (word asks).2
  next =>
    split
    next => exact stats_obeys c
    next =>
      split
      next => exact sleep_obeys string room
      next =>
        split
        next => exact ⟨_, rfl, rfl, rfl, rfl⟩
        next => exact ⟨_, rfl, rfl, rfl, rfl⟩

end Commands

/-- The keys of a line that the interpreter takes as they are meant: it is not too
long, split where a shell splits it, and no word has the hash of another. -/
structure Plain (keys : List Byte) : Prop where
  line : Line buffsize keys
  short : (receivedLine keys).length ≤ 254
  split : receivedLine keys = [] ∨ InFront keys
  command : Distinct commands (firstRun (receivedLine keys))
  word : firstRun (receivedLine keys) = ascii "time" →
    (firstWord (afterRun (receivedLine keys))).length < sizeofS ∧
      Distinct [ascii "reset"] (firstWord (afterRun (receivedLine keys)))

section Lines
variable {memory : Nat → Byte} {keys rest line : List Byte} {e : Editor} {base buffSize : Nat}

theorem line_echoed (holds : Holds base buffSize e line) (spared : Spared buffSize line keys)
    (open_line : carriageReturn ∉ keys) :
    (keys.foldl (edit buffSize) e).echo = e.echo ++ echoed line keys := by
  induction keys generalizing e line with
  | nil => simp [echoed]
  | cons key keys ih =>
      obtain ⟨other, later⟩ := not_or.mp (mt List.mem_cons.mpr open_line)
      have still := (spared_cons spared.now (Ne.symm other)).mp spared
      have pass : (edit buffSize e key).echo = e.echo ++
          (if Rubout key then if line = [] then [] else [backspace, space, backspace] else [key]) := by
        by_cases rubout : Rubout key
        · rw [edit, if_pos rubout, if_pos rubout, holds.count]
          by_cases nothing : line = []
          · rw [if_pos nothing, if_pos (by rw [nothing]; rfl), List.append_nil]
          · rw [if_neg nothing, if_neg (mt List.eq_nil_of_length_eq_zero nothing)]
            rfl
        · rw [edit, if_neg rubout, if_neg rubout, if_pos (holds.count ▸ spared.now)]
          rfl
      rw [List.foldl_cons, ih (edit_holds holds spared.now key) still later, pass, echoed,
        List.append_assoc]

theorem arguments_found
    (taken : uartInString (cleared memory) 0 buffsize (keys ++ [carriageReturn]) = .returned e [])
    (front : InFront keys) : argumentText keys = afterRun (receivedLine keys) := by
  have string := delivered_string taken
  have split := front.2
  rw [argumentText]
  by_cases at_start : leadingSpaces (receivedLine keys) = []
  · rw [if_pos at_start]
    rw [if_pos at_start] at split
    by_cases whole : firstRun (receivedLine keys) = receivedLine keys
    · -- the byte behind the terminator is a NUL as well, so nothing is left over
      have nothing := (args_behind string whole).2.2
      rw [if_pos whole, nothing, leftOver]
      cases more : 254 - (receivedLine keys).length with
      | zero => rfl
      | succ count =>
          rw [List.range'_succ, List.map_cons, List.takeWhile_cons_of_neg (by simp [split whole])]
    · rw [if_neg whole]
  · -- the two texts happen to be the same
    rw [if_neg at_start]
    rw [if_neg at_start] at split
    exact split.symm

theorem empty_line
    (taken : uartInString (cleared memory) 0 buffsize (keys ++ [carriageReturn]) = .returned e [])
    (nothing : receivedLine keys = []) (d : Diagnostics) : processLine d e.memory = .ok none := by
  have string := delivered_string taken
  rw [nothing] at string
  have zero : e.memory 0 = 0 := string.ends
  rw [processLine, splitLine, if_pos zero]
  rfl

theorem line_obeys (plain : Plain keys) {r : Readings} {systimeStart : BitVec 32} {started : Nat}
    (same : systimeStart = BitVec.ofNat 32 started)
    (taken : uartInString (cleared memory) 0 buffsize (keys ++ [carriageReturn]) = .returned e [])
    (some_text : receivedLine keys ≠ []) :
    ∃ o, processLine (diagnostics systimeStart r) e.memory = .ok (some o) ∧
      Obeys r started (request (receivedLine keys)) o := by
  have front := plain.split.resolve_left some_text
  have size : buffsize = 256 := rfl
  have short := plain.short
  have parts := congrArg List.length (line_parts (receivedLine keys))
  rw [List.length_append, List.length_append] at parts
  have string := delivered_string taken
  obtain ⟨arguments, room⟩ := argument_string taken (by omega) (by omega)
  rw [arguments_found taken front] at arguments room
  have inside_run : (cutLine e.memory (receivedLine keys)).cmd + (firstRun (receivedLine keys)).length <
      buffsize := by
    simp only [cutLine]
    omega
  obtain ⟨o, answer, obeys⟩ := command_obeys (r := r) same (cut_run string) inside_run arguments room
    plain.command plain.word
  refine ⟨o, ?_, obeys⟩
  rw [processLine, splitLine_eq string some_text (by omega), if_neg front.1]
  simp only [bind, Except.bind, answer]

end Lines

structure Agrees (s : Session) (c : Console) : Prop where
  sent : s.sent = c.shown
  started : s.systimeStart = BitVec.ofNat 32 c.started
  slept : s.slept = c.naps.map fun ms => (BitVec.ofInt 32 ms).toNat

theorem begun_agrees (memory : Nat → Byte) : Agrees (begun memory) switchedOn := ⟨rfl, rfl, rfl⟩

section Turns
variable {r : Readings} {s : Session} {c : Console} {keys : List Byte}

theorem command_agrees (agrees : Agrees s c) {asked : Request} {o : Outcome}
    (obeys : Obeys r c.started asked o) : Agrees (afterCommand r s o) (obey r c asked) := by
  refine ⟨?_, ?_, ?_⟩
  · simp only [afterCommand, obey, agrees.sent, obeys.output]
  · simp only [afterCommand, obey, obeys.cleared, decide_eq_true_eq]
    split
    · exact rawTimeMs_eq r
    · exact agrees.started
  · simp only [afterCommand, obey, agrees.slept, obeys.slept, List.map_append]
    cases asked.nap with
    | none => rfl
    | some ms => rfl

/-- One turn on one line does what the shell does, and leaves what comes behind it. -/
theorem turn_agrees (plain : Plain keys) (agrees : Agrees s c) (r : Readings) (rest : List Byte) :
    ∃ later, turn r s (keys ++ carriageReturn :: rest) = .ok (later, some rest) ∧
      Agrees later (Shell.turn c keys r) := by
  have returned := line_returned (cleared s.memory) 0 plain.line rest
  have taken := line_returned (cleared s.memory) 0 plain.line []
  have shown := line_echoed (start_holds (cleared s.memory) 0 buffsize) plain.line.fits
    plain.line.open_line
  rw [← afterKeys, List.nil_append] at shown
  rw [turn, returned]
  simp only
  have echo : (store (outBytes (afterKeys (cleared s.memory) 0 buffsize keys)
      [carriageReturn, lineFeed]) 0).echo = echoed [] keys ++ [carriageReturn, lineFeed] := by
    rw [← shown]
    rfl
  rw [echo]
  generalize store (outBytes (afterKeys (cleared s.memory) 0 buffsize keys)
    [carriageReturn, lineFeed]) 0 = e at taken
  have prompted : Agrees { s with memory := e.memory, sent := s.sent ++ ascii "> " ++
      (echoed [] keys ++ [carriageReturn, lineFeed]) } { c with shown := c.shown ++ prompt keys } := by
    refine ⟨?_, agrees.started, agrees.slept⟩
    simp only [agrees.sent, prompt, List.append_assoc]
  rw [Shell.turn]
  by_cases nothing : receivedLine keys = []
  · rw [if_pos nothing, empty_line taken nothing]
    exact ⟨_, rfl, prompted⟩
  · rw [if_neg nothing]
    obtain ⟨o, answer, obeys⟩ := line_obeys plain (r := r) agrees.started taken nothing
    simp only [answer, bind, Except.bind]
    exact ⟨_, rfl, command_agrees prompted obeys⟩

theorem session_agrees (lines : List (List Byte × Readings)) (plain : ∀ line ∈ lines, Plain line.1)
    (agrees : Agrees s c) (rest : List Byte) :
    ∃ later, session (lines.map Prod.snd) s
        (lines.flatMap (fun line => line.1 ++ [carriageReturn]) ++ rest) = .ok (later, rest) ∧
      Agrees later (lines.foldl (fun c line => Shell.turn c line.1 line.2) c) := by
  -- what the first turn leaves unread are the lines behind it
  induction lines generalizing s c with
  | nil => exact ⟨s, rfl, agrees⟩
  | cons line lines ih =>
      obtain ⟨middle, first, still⟩ := turn_agrees (plain line (.head _)) agrees line.2
        (lines.flatMap (fun line => line.1 ++ [carriageReturn]) ++ rest)
      obtain ⟨later, remaining, last⟩ := ih (fun line member => plain line (.tail _ member)) still
      refine ⟨later, ?_, last⟩
      rw [List.map_cons, List.flatMap_cons, List.append_assoc, List.append_assoc, List.singleton_append,
        session, first]
      exact remaining

end Turns

/-- From the greeting on, whatever was in the memory. -/
theorem session_is_shell (memory : Nat → Byte) (lines : List (List Byte × Readings))
    (plain : ∀ line ∈ lines, Plain line.1) (rest : List Byte) :
    ∃ s, session (lines.map Prod.snd) (begun memory)
        (lines.flatMap (fun line => line.1 ++ [carriageReturn]) ++ rest) = .ok (s, rest) ∧
      Agrees s (lines.foldl (fun c line => Shell.turn c line.1 line.2) switchedOn) :=
  session_agrees lines plain (begun_agrees memory) rest

def afterOneSecond : Readings := ⟨0, 1000000, 993, 1000, 1, 0, 1, ⟨131072, 512, 130560⟩⟩

def twoLines : List (List Byte × Readings) :=
  [(ascii "hlp" ++ [delete, delete] ++ ascii "elp", afterOneSecond), (ascii "sleep 20", afterOneSecond)]

theorem session_is_shell_corrected :
    ∃ s, session (twoLines.map Prod.snd) (begun fun _ => 0xFF)
        (twoLines.flatMap (fun line => line.1 ++ [carriageReturn]) ++ ascii "ti") = .ok (s, ascii "ti") ∧
      s.slept = [20] := by
  have plain : ∀ line ∈ twoLines, Plain line.1 := by
    intro line member
    rcases List.mem_cons.mp member with rfl | member
    · exact ⟨⟨by decide, by decide⟩, by decide, Or.inr (by decide), by decide, by decide⟩
    · rw [List.mem_singleton.mp member]
      exact ⟨⟨by decide, by decide⟩, by decide, Or.inr (by decide), by decide, by decide⟩
  obtain ⟨s, ran, agrees⟩ := session_is_shell (fun _ => 0xFF) twoLines plain (ascii "ti")
  exact ⟨s, ran, agrees.slept.trans (by decide)⟩

/-! Requests typed as they are written. -/

section Typing
variable {buffSize : Nat} {keys line : List Byte} {key : Byte}

theorem printable_plain (printable : Printable key) :
    ¬ Rubout key ∧ key ≠ 0 ∧ key ≠ carriageReturn := by
  refine ⟨?_, ?_, ?_⟩
  · rintro (rfl | rfl)
    · exact absurd printable (by decide)
    · exact absurd printable (by decide)
  · rintro rfl
    exact absurd printable (by decide)
  · rintro rfl
    exact absurd printable (by decide)

theorem typed_printable (printable : ∀ key ∈ keys, Printable key) :
    keys.foldl typed line = line ++ keys ∧ echoed line keys = keys := by
  induction keys generalizing line with
  | nil => exact ⟨(List.append_nil line).symm, rfl⟩
  | cons key keys ih =>
      have character := (printable_plain (printable key (.head _))).1
      have rest : keys.foldl typed (line ++ [key]) = line ++ [key] ++ keys ∧
          echoed (line ++ [key]) keys = keys := ih fun later member => printable later (.tail _ member)
      rw [List.foldl_cons, echoed, typed, if_neg character, if_neg character, rest.1, rest.2]
      exact ⟨List.append_assoc .., rfl⟩

theorem received_printable (printable : ∀ key ∈ keys, Printable key) : receivedLine keys = keys := by
  have edited : editedLine keys = keys := (typed_printable printable).1
  rw [receivedLine, edited]
  exact List.takeWhile_eq_self_iff.mpr fun key member =>
    decide_eq_true (printable_plain (printable key member)).2.1

theorem edited_length (keys line : List Byte) : (keys.foldl typed line).length ≤ line.length + keys.length := by
  induction keys generalizing line with
  | nil => exact Nat.le_refl _
  | cons key keys ih =>
      have grown := typed_length line key
      have later := ih (typed line key)
      rw [List.foldl_cons, List.length_cons]
      omega

theorem line_printable (printable : ∀ key ∈ keys, Printable key) (short : keys.length < buffSize) :
    Line buffSize keys := by
  refine ⟨fun ended => (printable_plain (printable _ ended)).2.2 rfl, fun early before _ => ?_⟩
  have grown := edited_length early []
  have part := before.length_le
  rw [List.length_nil] at grown
  exact Nat.lt_of_le_of_lt (by rw [editedLine]; omega) short

theorem lastTyped_behind (printable : ∀ key ∈ keys, Printable key) {column : Nat}
    (behind : keys.length ≤ column) : (lastTyped column keys).2 = 0 := by
  induction keys using List.reverseRecOn with
  | nil => rfl
  | append_singleton keys key ih =>
      have earlier : ∀ key ∈ keys, Printable key := fun key member =>
        printable key (List.mem_append_left _ member)
      have text : (lastTyped column keys).1 = keys :=
        (lastTyped_line column keys).trans (typed_printable earlier).1
      rw [List.length_append, List.length_singleton] at behind
      rw [lastTyped, List.foldl_concat, ← lastTyped]
      simp only [text]
      rw [if_neg (fun both => absurd both.2 (show ¬ keys.length = column by omega))]
      exact ih earlier (by omega)

theorem plain_printable (printable : ∀ key ∈ keys, Printable key) (short : keys.length ≤ 254)
    (some_text : firstRun keys ≠ []) (start : leadingSpaces keys = [])
    (command : Distinct commands (firstRun keys))
    (word : firstRun keys = ascii "time" → (firstWord (afterRun keys)).length < sizeofS ∧
      Distinct [ascii "reset"] (firstWord (afterRun keys))) : Plain keys := by
  have size : buffsize = 256 := rfl
  have same := received_printable printable
  have front : InFront keys := by
    rw [InFront, same, if_pos start]
    refine ⟨some_text, fun _ => ?_⟩
    have edited : editedLine keys = keys := (typed_printable printable).1
    rw [columnByte, edited, if_neg (by omega)]
    exact lastTyped_behind printable (by omega)
  refine ⟨line_printable printable (by omega), ?_, Or.inr front, ?_, ?_⟩
  · rw [same]
    exact short
  · rw [same]
    exact command
  · rw [same]
    exact word

end Typing

section Requests
variable {asked : Request}

theorem int_printable {ms : Int} (low : -2 ^ 31 ≤ ms) (high : ms < 2 ^ 31) :
    (∀ key ∈ ascii (toString ms), Printable key) ∧ (ascii (toString ms)).length ≤ 11 := by
  rw [← int_shown low high]
  refine ⟨fun key member => ?_, decimal_length _⟩
  rcases decimal_digits member with rfl | is_digit
  · decide
  · simp only [digit, BitVec.le_def, Bool.and_eq_true, decide_eq_true_eq, BitVec.reduceToNat] at is_digit
    simp only [Printable, space, delete, BitVec.le_def, BitVec.lt_def, BitVec.reduceToNat]
    omega

theorem text_printable (asked : Request) (number : asked.IsInt) :
    (∀ key ∈ asked.text, Printable key) ∧ asked.text.length ≤ 254 := by
  cases asked with
  | sleep ms =>
      obtain ⟨printable, short⟩ := int_printable number.1 number.2
      constructor
      · intro key member
        rcases List.mem_append.mp member with early | late
        · exact (show ∀ key ∈ ascii "sleep ", Printable key by decide) key early
        · exact printable key late
      · have length : (ascii "sleep ").length = 6 := rfl
        rw [Request.text, List.length_append]
        omega
  | uptime => decide
  | reset => decide
  | wrongArgument => decide
  | stats => decide
  | noNumber => decide
  | help => decide
  | unknown => decide

theorem text_words (asked : Request) :
    leadingSpaces asked.text = [] ∧ firstRun asked.text ∈ ascii "?" :: commands ∧
      (firstRun asked.text = ascii "time" →
        firstWord (afterRun asked.text) ∈ [[], ascii "reset", ascii "?"]) := by
  cases asked with
  | sleep ms =>
      have command : firstRun (Request.sleep ms).text = ascii "sleep" := rfl
      rw [command]
      exact ⟨rfl, by decide, fun other => absurd other (by decide)⟩
  | uptime => decide
  | reset => decide
  | wrongArgument => decide
  | stats => decide
  | noNumber => decide
  | help => decide
  | unknown => decide

theorem text_plain (asked : Request) (number : asked.IsInt) : Plain asked.text := by
  obtain ⟨printable, short⟩ := text_printable asked number
  obtain ⟨start, listed, argument⟩ := text_words asked
  have command : ∀ word ∈ ascii "?" :: commands, word ≠ [] ∧ Distinct commands word := by decide
  have word : ∀ word ∈ [[], ascii "reset", ascii "?"],
      word.length < sizeofS ∧ Distinct [ascii "reset"] word := by decide
  exact plain_printable printable short (command _ listed).1 start (command _ listed).2 fun is_time =>
    word _ (argument is_time)

def answered (c : Console) (asked : Request) (r : Readings) : Console :=
  obey r { c with shown := c.shown ++ (ascii "> " ++ asked.text ++ [carriageReturn, lineFeed]) } asked

theorem turn_text (c : Console) (number : asked.IsInt) (r : Readings) :
    Shell.turn c asked.text r = answered c asked r := by
  have printable := (text_printable asked number).1
  have some_text : asked.text ≠ [] := by
    intro nothing
    have word := text_words asked
    rw [nothing] at word
    exact absurd word.2.1 (by decide)
  rw [Shell.turn, received_printable printable, if_neg some_text, request_text asked number, prompt,
    (typed_printable printable).2]
  rfl

theorem naps_answered (requests : List (Request × Readings)) (c : Console) :
    (requests.foldl (fun c typed => answered c typed.1 typed.2) c).naps =
      c.naps ++ requests.filterMap (fun typed => typed.1.nap) := by
  induction requests generalizing c with
  | nil => exact (List.append_nil c.naps).symm
  | cons typed requests ih =>
      rw [List.foldl_cons, ih, answered, obey, List.append_assoc]
      cases nap : typed.1.nap with
      | none => simp [nap]
      | some ms => simp [nap]

end Requests

/-- Requests typed one to a line are done one after the other: none is lost, none is
taken for another, and every number is slept as it was typed. -/
theorem typed_requests (memory : Nat → Byte) (requests : List (Request × Readings))
    (numbers : ∀ typed ∈ requests, typed.1.IsInt) :
    ∃ s, session (requests.map Prod.snd) (begun memory)
        (requests.flatMap fun typed => typed.1.text ++ [carriageReturn]) = .ok (s, []) ∧
      Agrees s (requests.foldl (fun c typed => answered c typed.1 typed.2) switchedOn) ∧
      s.slept = (requests.filterMap fun typed => typed.1.nap).map fun ms => (BitVec.ofInt 32 ms).toNat := by
  have plain : ∀ line ∈ requests.map fun typed => (typed.1.text, typed.2), Plain line.1 := by
    intro line member
    obtain ⟨typed, listed, rfl⟩ := List.mem_map.mp member
    exact text_plain typed.1 (numbers typed listed)
  obtain ⟨s, ran, agrees⟩ := session_agrees _ plain (begun_agrees memory) []
  have same : (requests.map fun typed => (typed.1.text, typed.2)).foldl
      (fun c line => Shell.turn c line.1 line.2) switchedOn =
      requests.foldl (fun c typed => answered c typed.1 typed.2) switchedOn := by
    rw [List.foldl_map]
    apply List.foldl_ext
    intro c typed listed
    exact turn_text c (numbers typed listed) typed.2
  rw [same] at agrees
  rw [List.map_map, List.flatMap_map, List.append_nil] at ran
  refine ⟨s, ran, agrees, ?_⟩
  rw [agrees.slept, naps_answered]
  rfl

theorem typed_requests_naps :
    ∃ s, session [afterOneSecond, afterOneSecond, afterOneSecond] (begun fun _ => 0xFF)
        ([Request.sleep 20, .reset, .sleep (-1)].flatMap fun asked => asked.text ++ [carriageReturn]) =
          .ok (s, []) ∧
      s.slept = [20, 4294967295] := by
  obtain ⟨s, ran, _, slept⟩ := typed_requests (fun _ => 0xFF)
    [(.sleep 20, afterOneSecond), (.reset, afterOneSecond), (.sleep (-1), afterOneSecond)] (by
      intro typed member
      rcases List.mem_cons.mp member with rfl | member
      · exact ⟨by decide, by decide⟩
      · rcases List.mem_cons.mp member with rfl | member
        · exact trivial
        · rw [List.mem_singleton.mp member]
          exact ⟨by decide, by decide⟩)
  exact ⟨s, ran, slept.trans (by decide)⟩

end MulticoreRtos.Interpreter
