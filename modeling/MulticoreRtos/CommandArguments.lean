import MulticoreRtos.CommandLine

/-!
The commands read their arguments from `input_buffer` and `time` copies the first
word of them into `s`. What is read as arguments may be text of the line, the
command itself, or characters that have been deleted.
-/

namespace MulticoreRtos.Interpreter

open UartTransmit (Byte)
open LineInput LineEcho CString

def leftOver (keys : List Byte) : List Byte :=
  ((List.range' ((receivedLine keys).length + 1) (254 - (receivedLine keys).length)).map
    (columnByte keys)).takeWhile fun item => decide (item ≠ 0)

/-- The text at `input_buffer + strlen(cmd) + 1`. -/
def argumentText (keys : List Byte) : List Byte :=
  if leadingSpaces (receivedLine keys) = [] then
    if firstRun (receivedLine keys) = receivedLine keys then leftOver keys
    else afterRun (receivedLine keys)
  else (leadingSpaces (receivedLine keys) ++ firstRun (receivedLine keys)).drop
    ((firstRun (receivedLine keys)).length + 1)

def firstWord (text : List Byte) : List Byte :=
  (text.dropWhile white).takeWhile fun item => !white item

/-- The arguments of `time` and `sleep` start in the buffer, and the first word of
those of `time` leaves room in `s` for its NUL. -/
def ArgumentsFit (keys : List Byte) : Prop :=
  (hash (firstRun (receivedLine keys)) = timeHash ∨
      hash (firstRun (receivedLine keys)) = sleepHash →
    (firstRun (receivedLine keys)).length < 255) ∧
  (hash (firstRun (receivedLine keys)) = timeHash → (firstWord (argumentText keys)).length < sizeofS)

instance (keys : List Byte) : Decidable (ArgumentsFit keys) := inferInstanceAs (Decidable (_ ∧ _))

section Reads
variable {memory : Nat → Byte} {start limit : Nat} {text : List Byte}

theorem skipSign_string (string : IsString memory start text) :
    ∃ rest, IsString memory (skipSign memory start) rest ∧
      skipSign memory start + rest.length = start + text.length := by
  rw [skipSign]
  split
  next signed =>
    cases text with
    | nil =>
        have ends : memory start = 0 := string.ends
        rw [ends] at signed
        exact absurd signed (by decide)
    | cons item items =>
        rw [← List.singleton_append] at string
        refine ⟨items, string.rest, ?_⟩
        rw [List.length_cons]
        omega
  next => exact ⟨text, string, rfl⟩

theorem scanInt_some (string : IsString memory start text) (inside : start + text.length < limit) :
    ∃ answer, scanInt memory limit start = some answer := by
  obtain ⟨first, tail⟩ := string.scan_while (fun item => !white item) (by decide) inside
  have size := length_parts (fun item => !!white item) text
  obtain ⟨rest, digits, same⟩ := skipSign_string tail
  obtain ⟨last, _⟩ := digits.scan_while (fun item => !digit item) (by decide)
    (show _ < limit by omega)
  rw [scanInt, first, Option.bind_eq_bind, Option.bind_some]
  simp only [last, Option.bind_some]
  exact ⟨_, rfl⟩

theorem printBuffer_ok (o : Outcome) (text : List Byte) : ∃ o', printBuffer o text = .ok o' := by
  have ends : snprintf o.memory buffsize text (min text.length (buffsize - 1)) = 0 := by
    simp only [snprintf, Nat.lt_irrefl, if_false, if_true]
  obtain ⟨printed, string, short⟩ := string_before (Nat.zero_le _) ends
  have room : 0 + printed.length < buffsize := by
    have least := Nat.min_le_right text.length (buffsize - 1)
    have some_bytes : 0 < buffsize := by decide
    omega
  rw [printBuffer]
  simp only [inside, string.read room, bind, Except.bind]
  exact ⟨_, rfl⟩

theorem stats_ok (d : Diagnostics) (c : Command) : ∃ o, stats d c = .ok o := by
  obtain ⟨first, cpu⟩ := printBuffer_ok (quiet c.memory) (ascii "CPU0 idle percentage: " ++
    (decimal (d.cpu0Idle / 10) ++ ascii "." ++ decimal (d.cpu0Idle % 10)) ++
    ascii "\r\nCPU1 idle percentage: " ++
    (decimal (d.cpu1Idle / 10) ++ ascii "." ++ decimal (d.cpu1Idle % 10)) ++ ascii "\r\n")
  obtain ⟨second, threads⟩ := printBuffer_ok first (ascii "\r\nRunning Threads: " ++
    decimal d.runningThreadCnt ++ ascii "\r\nActive Threads: " ++ decimal d.activeThreadCnt ++
    ascii "\r\nLifetime Threads: " ++ decimal d.lifetimeThreadCnt ++ ascii "\r\n")
  rw [stats]
  simp only [cpu, threads, bind, Except.bind]
  exact printBuffer_ok second _

/-- `%s` has no bound of its own. -/
theorem time_ok (d : Diagnostics) {c : Command} (string : IsString c.memory c.args text)
    (room : c.args + text.length < buffsize) :
    (∃ o, time d c = .ok o) ↔ (firstWord text).length < sizeofS := by
  have word := string.word white (by decide) room
  rw [← firstWord] at word
  rw [time, word]
  simp only [inside, bind, Except.bind]
  by_cases nothing : firstWord text = []
  · obtain ⟨o, printed⟩ := printBuffer_ok (quiet c.memory)
      (ascii "System uptime: " ++ decimal d.mstime ++ ascii " ms\r\n")
    rw [if_pos nothing, nothing]
    exact iff_of_true ⟨o, printed⟩ (by decide)
  · rw [if_neg nothing]
    by_cases long : sizeofS < (firstWord text).length + 1
    · rw [if_pos long]
      exact iff_of_false (by simp) (by omega)
    · rw [if_neg long]
      refine iff_of_true ?_ (by omega)
      split
      · exact ⟨_, rfl⟩
      · exact ⟨_, rfl⟩

theorem sleep_ok {c : Command} (string : IsString c.memory c.args text)
    (room : c.args + text.length < buffsize) : ∃ o, sleep c = .ok o := by
  obtain ⟨answer, converted⟩ := scanInt_some string room
  rw [sleep, converted]
  cases answer with
  | none => exact ⟨_, rfl⟩
  | some value =>
      obtain ⟨o, printed⟩ := printBuffer_ok (quiet c.memory)
        (ascii "Sleeping for: " ++ decimal (BitVec.ofInt 32 value).toNat ++ ascii " ms.\r\n")
      simp only [inside, bind, Except.bind, printed]
      exact ⟨_, rfl⟩

theorem time_outside (d : Diagnostics) {c : Command} (outside : buffsize ≤ c.args) (o : Outcome) :
    time d c ≠ .ok o := by
  rw [time, scanWord, scanTo_outside outside]
  simp [inside, bind, Except.bind]

theorem sleep_outside {c : Command} (outside : buffsize ≤ c.args) (o : Outcome) :
    sleep c ≠ .ok o := by
  rw [sleep, scanInt, scanTo_outside outside]
  simp [inside, bind, Except.bind]

/-- Only `time` and `sleep` look at their arguments, and only `time` copies them. -/
theorem command_ok (d : Diagnostics) {c : Command} {cmd : List Byte}
    (run : IsString c.memory c.cmd cmd) (room : c.cmd + cmd.length < buffsize)
    (arguments : cmd.length < 255 → IsString c.memory c.args text ∧ c.args + text.length < buffsize)
    (outside : ¬ cmd.length < 255 → buffsize ≤ c.args) :
    (∃ o, command d c = .ok o) ↔
      (hash cmd = timeHash ∨ hash cmd = sleepHash → cmd.length < 255) ∧
        (hash cmd = timeHash → (firstWord text).length < sizeofS) := by
  rw [command, run.read room]
  simp only [inside, bind, Except.bind]
  by_cases is_time : hash cmd = timeHash
  · rw [if_pos is_time]
    by_cases early : cmd.length < 255
    · obtain ⟨string, fits⟩ := arguments early
      rw [time_ok d string fits]
      simp [is_time, early]
    · refine iff_of_false ?_ fun fit => early (fit.1 (Or.inl is_time))
      rintro ⟨o, answer⟩
      exact time_outside d (outside early) o answer
  · rw [if_neg is_time]
    by_cases is_stats : hash cmd = statsHash
    · rw [if_pos is_stats]
      refine iff_of_true (stats_ok d c) ?_
      simp [is_stats, show statsHash ≠ timeHash by decide, show statsHash ≠ sleepHash by decide]
    · rw [if_neg is_stats]
      by_cases is_sleep : hash cmd = sleepHash
      · rw [if_pos is_sleep]
        by_cases early : cmd.length < 255
        · obtain ⟨string, fits⟩ := arguments early
          exact iff_of_true (sleep_ok string fits) (by simp [is_time, early])
        · refine iff_of_false ?_ fun fit => early (fit.1 (Or.inr is_sleep))
          rintro ⟨o, answer⟩
          exact sleep_outside (outside early) o answer
      · rw [if_neg is_sleep]
        refine iff_of_true ?_ (by simp [is_time, is_sleep])
        split
        · exact ⟨_, rfl⟩
        · exact ⟨_, rfl⟩

end Reads

section Arguments
variable {memory : Nat → Byte} {keys : List Byte} {e : Editor}

theorem leftOver_string
    (taken : uartInString (cleared memory) 0 buffsize (keys ++ [carriageReturn]) = .returned e [])
    (short : (receivedLine keys).length ≤ 254) :
    IsString e.memory ((receivedLine keys).length + 1) (leftOver keys) ∧
      (receivedLine keys).length + 1 + (leftOver keys).length < buffsize := by
  have size : buffsize = 256 := rfl
  have stands : Stands e.memory ((receivedLine keys).length + 1)
      ((List.range' ((receivedLine keys).length + 1) (254 - (receivedLine keys).length)).map
        (columnByte keys)) := by
    intro index behind
    rw [List.length_map, List.length_range'] at behind
    rw [delivered_byte taken (by omega)]
    simp
  have ends : e.memory ((receivedLine keys).length + 1 +
      ((List.range' ((receivedLine keys).length + 1) (254 - (receivedLine keys).length)).map
        (columnByte keys)).length) = 0 := by
    rw [List.length_map, List.length_range',
      show (receivedLine keys).length + 1 + (254 - (receivedLine keys).length) = 255 by omega]
    exact delivered_last taken
  refine ⟨stands.ended ends, ?_⟩
  have least := length_parts (fun item => decide (item ≠ 0))
    ((List.range' ((receivedLine keys).length + 1) (254 - (receivedLine keys).length)).map
      (columnByte keys))
  rw [List.length_map, List.length_range', ← leftOver] at least
  omega

theorem argument_string
    (taken : uartInString (cleared memory) 0 buffsize (keys ++ [carriageReturn]) = .returned e [])
    (short : (receivedLine keys).length ≤ 255) (early : (firstRun (receivedLine keys)).length < 255) :
    IsString (cutLine e.memory (receivedLine keys)).memory (cutLine e.memory (receivedLine keys)).args
        (argumentText keys) ∧
      (cutLine e.memory (receivedLine keys)).args + (argumentText keys).length < buffsize := by
  have string := delivered_string taken
  have size : buffsize = 256 := rfl
  have parts := congrArg List.length (line_parts (receivedLine keys))
  rw [List.length_append, List.length_append] at parts
  rw [argumentText]
  by_cases front : leadingSpaces (receivedLine keys) = []
  · rw [if_pos front]
    by_cases whole : firstRun (receivedLine keys) = receivedLine keys
    · rw [if_pos whole]
      obtain ⟨same, behind, _⟩ := args_behind string whole
      rw [same, behind]
      exact leftOver_string taken (by rw [← whole]; omega)
    · rw [if_neg whole]
      refine ⟨args_found string front whole, ?_⟩
      rcases rest_separated (receivedLine keys) with nothing | separated
      · have rest := line_parts (receivedLine keys)
        rw [front, nothing, List.nil_append, List.append_nil] at rest
        exact absurd rest whole
      · rw [separated, List.length_cons] at parts
        simp only [cutLine]
        omega
  · rw [if_neg front]
    refine ⟨args_shifted string front, ?_⟩
    have some_spaces := List.length_pos_of_ne_nil front
    simp only [cutLine, List.length_drop, List.length_append]
    omega

theorem processLine_ok (d : Diagnostics)
    (taken : uartInString (cleared memory) 0 buffsize (keys ++ [carriageReturn]) = .returned e [])
    (short : (receivedLine keys).length ≤ 255) (word : firstRun (receivedLine keys) ≠ []) :
    (∃ outcome, processLine d e.memory = .ok outcome) ↔
      ∃ o, command d (cutLine e.memory (receivedLine keys)) = .ok o := by
  have some_text : receivedLine keys ≠ [] := by
    intro nothing
    rw [nothing] at word
    exact word rfl
  rw [processLine, splitLine_eq (delivered_string taken) some_text (Nat.lt_succ_of_le short),
    if_neg word]
  simp only [bind, Except.bind]
  cases command d (cutLine e.memory (receivedLine keys)) with
  | error fault => simp
  | ok o => simp

end Arguments

/-- A turn reads and writes inside its two arrays exactly when the arguments fit. -/
theorem arguments_inside_iff (d : Diagnostics) (memory : Nat → Byte) (keys : List Byte) (e : Editor)
    (taken : uartInString (cleared memory) 0 buffsize (keys ++ [carriageReturn]) = .returned e [])
    (short : (receivedLine keys).length ≤ 255) (word : firstRun (receivedLine keys) ≠ []) :
    (∃ outcome, processLine d e.memory = .ok outcome) ↔ ArgumentsFit keys := by
  have size : buffsize = 256 := rfl
  have parts := congrArg List.length (line_parts (receivedLine keys))
  rw [List.length_append, List.length_append] at parts
  rw [processLine_ok d taken short word]
  apply command_ok d (cut_run (delivered_string taken)) _ (argument_string taken short)
  · intro late
    simp only [cutLine]
    omega
  · simp only [cutLine]
    omega

def oneSecond : Diagnostics := ⟨1000, 993, 1000, 1, 0, 1, ⟨131072, 512, 130560⟩⟩

theorem arguments_inside_reset :
    ∃ e, uartInString (cleared fun _ => 0xFF) 0 buffsize (ascii "time reset" ++ [carriageReturn]) =
        .returned e [] ∧
      ∃ outcome, processLine oneSecond e.memory = .ok outcome := by
  have taken : ∃ e, uartInString (cleared fun _ => 0xFF) 0 buffsize
      (ascii "time reset" ++ [carriageReturn]) = .returned e [] := ⟨_, rfl⟩
  obtain ⟨e, taken⟩ := taken
  exact ⟨e, taken, (arguments_inside_iff oneSecond _ (ascii "time reset") e taken (by decide)
    (by decide)).mpr (by decide)⟩

/-- An argument of twenty characters needs 21 bytes. -/
theorem long_argument_overruns :
    ¬ ∀ (d : Diagnostics) (memory : Nat → Byte) (keys : List Byte) (e : Editor),
      uartInString (cleared memory) 0 buffsize (keys ++ [carriageReturn]) = .returned e [] →
      (receivedLine keys).length ≤ 255 → firstRun (receivedLine keys) ≠ [] →
      ∃ outcome, processLine d e.memory = .ok outcome := by
  intro always
  have taken : ∃ e, uartInString (cleared fun _ => 0xFF) 0 buffsize
      (ascii "time 01234567890123456789" ++ [carriageReturn]) = .returned e [] ∧
      processLine oneSecond e.memory = .error .outsideLocal := ⟨_, rfl, rfl⟩
  obtain ⟨e, taken, overrun⟩ := taken
  obtain ⟨outcome, fine⟩ := always oneSecond _ (ascii "time 01234567890123456789") e taken
    (by decide) (by decide)
  rw [overrun] at fine
  cases fine

end MulticoreRtos.Interpreter
