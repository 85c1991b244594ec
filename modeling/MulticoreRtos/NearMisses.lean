import MulticoreRtos.Fnv
import MulticoreRtos.ShellSession

/-!
Mistyped words. The `switch` of `interpreter` compares hashes, so a word that is no
command may still be taken for one; but not a command with one character mistyped,
or two neighbouring ones mistyped or swapped.
-/

namespace MulticoreRtos.Interpreter

open UartTransmit (Byte)
open LineInput LineEcho CString Shell

/-- Two neighbouring characters of the name, and no others, are not as they should be. -/
def NearMiss (name word : List Byte) : Prop :=
  ∃ early late : List Byte, ∃ a b c d : Byte,
    name = early ++ a :: b :: late ∧ word = early ++ c :: d :: late ∧ word ≠ name

theorem hash_eq (data : List Byte) : hash data = data.foldl (Fnv.takeIn 0x01000193) 0x811c9dc5 := rfl

/-- The prime is 2^24 + 403: a difference of two bytes is moved to the top byte, and what
it leaves in the low bytes is more than the next byte can change. -/
theorem prime_spreads : Fnv.Spreads (0x01000193 : BitVec 32) := by
  intro first second small few multiple
  have value : (0x01000193 : BitVec 32).toNat = 0x01000193 := rfl
  rw [value] at multiple
  obtain ⟨times, whole⟩ := Int.dvd_of_emod_eq_zero multiple
  -- a multiple of the word is at most 255 times the prime away from 0
  have once : times = -1 ∨ times = 0 ∨ times = 1 := by omega
  rcases once with rfl | rfl | rfl
  · omega
  · omega
  · omega

theorem near_miss_hash {name word : List Byte} (miss : NearMiss name word) : hash word ≠ hash name := by
  obtain ⟨early, late, a, b, c, d, rfl, rfl, other⟩ := miss
  intro same
  rw [hash_eq, hash_eq] at same
  obtain ⟨rfl, rfl⟩ := (Fnv.neighbours_apart (by decide) (by decide) prime_spreads _ early late c d a b).mp same
  exact other rfl

section Effects
variable {d : Diagnostics} {c : Command} {o later : Outcome} {text cmd : List Byte}

theorem bind_ok {First Second : Type} {part : Except Fault First} {next : First → Except Fault Second}
    {answer : Second} (ran : part >>= next = .ok answer) :
    ∃ middle, part = .ok middle ∧ next middle = .ok answer := by
  cases part with
  | error fault => cases ran
  | ok middle => exact ⟨middle, rfl, ran⟩

theorem inside_ok {Answer : Type} {found : Option Answer} {answer : Answer}
    (ran : inside found = .ok answer) : found = some answer := by
  cases found with
  | none => cases ran
  | some other =>
      rw [inside, Except.ok.injEq] at ran
      rw [ran]

theorem printBuffer_keeps (printed : printBuffer o text = .ok later) :
    later.cleared = o.cleared ∧ later.slept = o.slept := by
  obtain ⟨shown, _, done⟩ := bind_ok printed
  cases done
  exact ⟨rfl, rfl⟩

theorem stats_keeps (answer : stats d c = .ok o) : o.cleared = false ∧ o.slept = none := by
  obtain ⟨first, cpu, rest⟩ := bind_ok answer
  obtain ⟨second, threads, heap⟩ := bind_ok rest
  have one := printBuffer_keeps cpu
  have two := printBuffer_keeps threads
  have three := printBuffer_keeps heap
  rw [three.1, three.2, two.1, two.2, one.1, one.2]
  exact ⟨rfl, rfl⟩

theorem time_effects (answer : time d c = .ok o) :
    o.slept = none ∧ (o.cleared = true →
      ∃ word, scanWord white c.memory buffsize c.args = some word ∧ hash word = resetHash) := by
  obtain ⟨word, read, rest⟩ := bind_ok answer
  split at rest
  · have kept := printBuffer_keeps rest
    rw [kept.1, kept.2]
    exact ⟨rfl, fun cleared => absurd cleared Bool.false_ne_true⟩
  · split at rest
    · cases rest
    · simp only at rest
      split at rest
      next is_reset =>
        cases rest
        exact ⟨rfl, fun _ => ⟨word, inside_ok read, is_reset⟩⟩
      next =>
        cases rest
        exact ⟨rfl, fun cleared => absurd cleared Bool.false_ne_true⟩

theorem sleep_keeps (answer : sleep c = .ok o) : o.cleared = false := by
  obtain ⟨converted, _, rest⟩ := bind_ok answer
  cases converted with
  | none =>
      cases rest
      rfl
  | some value =>
      obtain ⟨printed, shown, done⟩ := bind_ok rest
      cases done
      exact (printBuffer_keeps shown).1

theorem command_effects (run : readString c.memory buffsize c.cmd = some cmd)
    (answer : command d c = .ok o) :
    (o.slept ≠ none → hash cmd = sleepHash) ∧
      (o.cleared = true → hash cmd = timeHash ∧
        ∃ word, scanWord white c.memory buffsize c.args = some word ∧ hash word = resetHash) := by
  rw [command, run] at answer
  simp only [inside, bind, Except.bind] at answer
  split at answer
  next is_time =>
    have effects := time_effects answer
    exact ⟨fun slept => absurd effects.1 slept, fun cleared => ⟨is_time, effects.2 cleared⟩⟩
  next =>
    split at answer
    next =>
      have kept := stats_keeps answer
      exact ⟨fun slept => absurd kept.2 slept, fun cleared => absurd cleared (by rw [kept.1]; decide)⟩
    next =>
      split at answer
      next is_sleep =>
        have kept := sleep_keeps answer
        exact ⟨fun _ => is_sleep, fun cleared => absurd cleared (by rw [kept]; decide)⟩
      next =>
        split at answer
        next =>
          cases answer
          exact ⟨fun slept => absurd rfl slept, fun cleared => absurd cleared Bool.false_ne_true⟩
        next =>
          cases answer
          exact ⟨fun slept => absurd rfl slept, fun cleared => absurd cleared Bool.false_ne_true⟩

end Effects

section Turns
variable {r : Readings} {s later : Session} {keys : List Byte} {e : Editor} {memory : Nat → Byte} {d : Diagnostics}

theorem line_effects {outcome : Option Outcome}
    (taken : uartInString (cleared memory) 0 buffsize (keys ++ [carriageReturn]) = .returned e [])
    (answer : processLine d e.memory = .ok outcome) :
    ∀ o ∈ outcome, (o.slept ≠ none → hash (firstRun (receivedLine keys)) = sleepHash) ∧
      (o.cleared = true → hash (firstRun (receivedLine keys)) = timeHash ∧
        hash (firstWord (argumentText keys)) = resetHash) := by
  intro o member
  have string := delivered_string taken
  have size : buffsize = 256 := rfl
  have short : (receivedLine keys).length ≤ 255 := by
    have room := (taken_line (by decide) taken).1.room
    have part : receivedLine keys <+: editedLine keys := List.takeWhile_prefix _
    have least := part.length_le
    omega
  have parts := congrArg List.length (line_parts (receivedLine keys))
  rw [List.length_append, List.length_append] at parts
  by_cases nothing : receivedLine keys = []
  · rw [empty_line taken nothing] at answer
    cases answer
    cases member
  · rw [processLine, splitLine_eq string nothing (by omega)] at answer
    by_cases word : firstRun (receivedLine keys) = []
    · simp [word, bind, Except.bind] at answer
    · rw [if_neg word] at answer
      obtain ⟨cut, here, rest⟩ := bind_ok answer
      cases here
      obtain ⟨done, ran, returned⟩ := bind_ok rest
      cases returned
      cases member
      have inside_run : (cutLine e.memory (receivedLine keys)).cmd +
          (firstRun (receivedLine keys)).length < buffsize := by
        simp only [cutLine]
        omega
      obtain ⟨slept, reset⟩ := command_effects ((cut_run string).read inside_run) ran
      refine ⟨slept, fun was_cleared => ?_⟩
      obtain ⟨is_time, found, read, same⟩ := reset was_cleared
      refine ⟨is_time, ?_⟩
      by_cases early : (firstRun (receivedLine keys)).length < 255
      · obtain ⟨arguments, room⟩ := argument_string taken short early
        rw [arguments.word white (by decide) room, ← firstWord, Option.some.injEq] at read
        rw [read]
        exact same
      · -- behind a command of 255 characters the arguments start outside the buffer
        have outside : buffsize ≤ (cutLine e.memory (receivedLine keys)).args := by
          simp only [cutLine]
          omega
        rw [scanWord, scanTo_outside outside] at read
        cases read

theorem turn_effects (line : Line buffsize keys) {rest : List Byte} {unread : Option (List Byte)}
    (taken : turn r s (keys ++ carriageReturn :: rest) = .ok (later, unread)) :
    (hash (firstRun (receivedLine keys)) ≠ sleepHash → later.slept = s.slept) ∧
      (¬ (hash (firstRun (receivedLine keys)) = timeHash ∧
        hash (firstWord (argumentText keys)) = resetHash) → later.systimeStart = s.systimeStart) := by
  have delivered := line_returned (cleared s.memory) 0 line []
  rw [turn, line_returned (cleared s.memory) 0 line rest] at taken
  obtain ⟨outcome, ran, returned⟩ := bind_ok taken
  have effects := line_effects delivered ran
  cases outcome with
  | none =>
      cases returned
      exact ⟨fun _ => rfl, fun _ => rfl⟩
  | some o =>
      cases returned
      obtain ⟨slept, reset⟩ := effects o rfl
      constructor
      · intro other
        have none_slept : o.slept = none := by
          by_contra some_slept
          exact other (slept some_slept)
        simp [afterCommand, none_slept]
      · intro other
        simp [afterCommand, mt reset other]

end Turns

/-- In no state does a mistyped `sleep` sleep, or a mistyped `time` or `reset` reset the
time. -/
theorem near_misses_harmless (r : Readings) (s later : Session) (keys rest : List Byte)
    (unread : Option (List Byte)) (line : Line buffsize keys)
    (taken : turn r s (keys ++ carriageReturn :: rest) = .ok (later, unread)) :
    (NearMiss (ascii "sleep") (firstRun (receivedLine keys)) → later.slept = s.slept) ∧
      (NearMiss (ascii "time") (firstRun (receivedLine keys)) ∨
          NearMiss (ascii "reset") (firstWord (argumentText keys)) →
        later.systimeStart = s.systimeStart) := by
  obtain ⟨slept, reset⟩ := turn_effects line taken
  have sleep_named : hash (ascii "sleep") = sleepHash := by decide
  have time_named : hash (ascii "time") = timeHash := by decide
  have reset_named : hash (ascii "reset") = resetHash := by decide
  constructor
  · intro miss
    apply slept
    rw [← sleep_named]
    exact near_miss_hash miss
  · intro miss
    apply reset
    rintro ⟨is_time, is_reset⟩
    rcases miss with command | argument
    · exact near_miss_hash command (is_time.trans time_named.symm)
    · exact near_miss_hash argument (is_reset.trans reset_named.symm)

theorem near_misses_harmless_swapped :
    ∃ later unread, turn afterOneSecond (begun fun _ => 0xFF) (ascii "slepe 20" ++ [carriageReturn]) =
        .ok (later, unread) ∧ later.slept = [] := by
  have taken : ∃ later unread, turn afterOneSecond (begun fun _ => 0xFF)
      (ascii "slepe 20" ++ [carriageReturn]) = .ok (later, unread) := ⟨_, _, rfl⟩
  obtain ⟨later, unread, taken⟩ := taken
  have miss : NearMiss (ascii "sleep") (firstRun (receivedLine (ascii "slepe 20"))) :=
    ⟨ascii "sle", [], 0x65, 0x70, 0x70, 0x65, rfl, rfl, by decide⟩
  exact ⟨later, unread, taken, (near_misses_harmless afterOneSecond _ later (ascii "slepe 20") [] unread
    ⟨by decide, by decide⟩ taken).1 miss⟩

end MulticoreRtos.Interpreter
