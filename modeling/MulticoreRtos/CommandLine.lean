import MulticoreRtos.Interpreter

/-!
The split of a line into command and arguments. The command comes from `strtok`,
which skips the spaces in front of it; the arguments are looked for at the
command's length behind the start of the buffer, as if there had been none.
-/

namespace MulticoreRtos.Interpreter

open UartTransmit (Byte)
open LineInput LineEcho CString

section Delivered
variable {memory : Nat → Byte} {keys : List Byte} {e : Editor}

theorem delivered_byte
    (taken : uartInString (cleared memory) 0 buffsize (keys ++ [carriageReturn]) = .returned e [])
    {column : Nat} (inside : column < buffsize) : e.memory column = columnByte keys column := by
  obtain ⟨line, same⟩ := taken_line (by decide) taken
  rw [same, columnByte, Nat.zero_add]
  by_cases last : column = (editedLine keys).length
  · rw [if_pos last, last, Function.update_self]
  · have zeroed : cleared memory (0 + column) = 0 := by
      rw [Nat.zero_add, cleared, if_pos inside]
    have left := keys_left line column zeroed
    rw [Nat.zero_add] at left
    rw [if_neg last, Function.update_of_ne last, left]

theorem delivered_last
    (taken : uartInString (cleared memory) 0 buffsize (keys ++ [carriageReturn]) = .returned e []) :
    e.memory 255 = 0 := by
  obtain ⟨line, _⟩ := taken_line (by decide) taken
  rw [delivered_byte taken (by decide), columnByte]
  split
  · rfl
  · exact lastTyped_outside line (by decide)

theorem delivered_string
    (taken : uartInString (cleared memory) 0 buffsize (keys ++ [carriageReturn]) = .returned e []) :
    IsString e.memory 0 (receivedLine keys) := by
  obtain ⟨line, same⟩ := taken_line (by decide) taken
  have held := keys_held (cleared memory) 0 line
  have stands : Stands e.memory 0 (editedLine keys) := by
    rw [same]
    exact Stands.keep held.text (Or.inr (Nat.le_refl _))
  have ends : e.memory (0 + (editedLine keys).length) = 0 := by rw [same, Function.update_self]
  exact stands.ended ends

end Delivered

section Split
variable {memory : Nat → Byte} {line : List Byte}

theorem line_parts (line : List Byte) :
    leadingSpaces line ++ (firstRun line ++ (line.dropWhile blank).dropWhile nonBlank) = line := by
  rw [firstRun, List.takeWhile_append_dropWhile, leadingSpaces, List.takeWhile_append_dropWhile]

theorem rest_separated (line : List Byte) :
    (line.dropWhile blank).dropWhile nonBlank = [] ∨
      (line.dropWhile blank).dropWhile nonBlank = space :: afterRun line := by
  have refused := List.head?_dropWhile_not nonBlank (line.dropWhile blank)
  rw [afterRun]
  cases rest : (line.dropWhile blank).dropWhile nonBlank with
  | nil => exact Or.inl rfl
  | cons item items =>
      right
      rw [rest] at refused
      simp only [List.head?_cons, nonBlank, decide_eq_false_iff_not, not_not] at refused
      rw [refused, List.tail_cons]

theorem firstRun_nil : firstRun line = [] ↔ line.dropWhile blank = [] := by
  constructor
  · intro none_found
    have refused := List.head?_dropWhile_not blank line
    rw [firstRun] at none_found
    cases rest : line.dropWhile blank with
    | nil => rfl
    | cons item items =>
        rw [rest] at refused none_found
        simp only [List.head?_cons, blank, decide_eq_false_iff_not] at refused
        simp [nonBlank, refused] at none_found
  · intro none_left
    rw [firstRun, none_left, List.takeWhile_nil]

def cutLine (memory : Nat → Byte) (line : List Byte) : Command :=
  ⟨Function.update memory ((leadingSpaces line).length + (firstRun line).length) 0,
    (leadingSpaces line).length, (firstRun line).length + 1⟩

theorem cut_run (string : IsString memory 0 line) :
    IsString (cutLine memory line).memory (cutLine memory line).cmd (firstRun line) := by
  have parts := line_parts line
  rw [← parts] at string
  have tail := string.rest
  rw [Nat.zero_add] at tail
  exact tail.cut

theorem splitLine_eq (string : IsString memory 0 line) (some_text : line ≠ [])
    (short : line.length < buffsize) :
    splitLine memory =
      if firstRun line = [] then .error .nullPointer else .ok (some (cutLine memory line)) := by
  have used : memory 0 ≠ 0 := by
    obtain ⟨item, items, rfl⟩ := List.exists_cons_of_ne_nil some_text
    rw [string.stands.head]
    exact string.nonzero item List.mem_cons_self
  have inside_buffer : 0 + line.length < buffsize := by rwa [Nat.zero_add]
  have token := strtok_spec space (by decide) string inside_buffer
    (show _ = leadingSpaces line from rfl) (show _ = line.dropWhile blank from rfl)
    (show _ = firstRun line from rfl)
  have size := congrArg List.length (line_parts line)
  rw [List.length_append, List.length_append] at size
  rw [splitLine, if_neg used, token]
  by_cases none_found : firstRun line = []
  · rw [if_pos none_found, if_pos (firstRun_nil.mp none_found)]
    rfl
  · have cut := cut_run string
    have room : (cutLine memory line).cmd + (firstRun line).length < buffsize := by
      simp only [cutLine]
      omega
    have length := cut.length room
    rw [if_neg none_found, if_neg (mt firstRun_nil.mpr none_found), Nat.zero_add]
    simp only [cutLine] at length
    simp only [inside, bind, Except.bind, length]
    rfl

theorem args_found (string : IsString memory 0 line) (front : leadingSpaces line = [])
    (more : firstRun line ≠ line) :
    IsString (cutLine memory line).memory (cutLine memory line).args (afterRun line) := by
  have parts := line_parts line
  rw [front, List.nil_append] at parts
  rcases rest_separated line with nothing | separated
  · rw [nothing, List.append_nil] at parts
    exact absurd parts more
  · rw [separated] at parts
    rw [← parts, ← List.singleton_append, ← List.append_assoc] at string
    have text := string.rest
    rw [Nat.zero_add, List.length_append, List.length_singleton] at text
    simp only [cutLine, front, List.length_nil, Nat.zero_add]
    exact text.behind_cut (Nat.lt_succ_self _)

/-- With nothing behind the command, the arguments are looked for behind the
terminator of the line. -/
theorem args_behind (string : IsString memory 0 line) (whole : firstRun line = line) :
    (cutLine memory line).memory = memory ∧ (cutLine memory line).args = line.length + 1 ∧
      afterRun line = [] := by
  have parts := line_parts line
  have size := congrArg List.length parts
  rw [List.length_append, List.length_append, whole] at size
  have ends := string.ends
  rw [Nat.zero_add] at ends
  have front : (leadingSpaces line).length = 0 := by omega
  have rest : (line.dropWhile blank).dropWhile nonBlank = [] :=
    List.eq_nil_of_length_eq_zero (by omega)
  simp only [cutLine, afterRun, front, whole, rest, List.tail_nil, Nat.zero_add, and_true]
  exact Function.update_eq_self_iff.mpr ends.symm

/-- With spaces in front, the arguments are looked for in the spaces or in the
command itself. -/
theorem args_shifted (string : IsString memory 0 line) (front : leadingSpaces line ≠ []) :
    IsString (cutLine memory line).memory (cutLine memory line).args
      ((leadingSpaces line ++ firstRun line).drop ((firstRun line).length + 1)) := by
  have parts := line_parts line
  rw [← parts, ← List.append_assoc] at string
  have cut := string.cut
  rw [Nat.zero_add, List.length_append] at cut
  have some_spaces := List.length_pos_of_ne_nil front
  have reach : (firstRun line).length + 1 ≤ (leadingSpaces line ++ firstRun line).length := by
    rw [List.length_append]
    omega
  rw [← List.take_append_drop ((firstRun line).length + 1) (leadingSpaces line ++ firstRun line)]
    at cut
  have shifted := cut.rest
  rwa [Nat.zero_add, List.length_take, Nat.min_eq_left reach] at shifted

end Split

/-- What the commands rely on: the first run of the line as the command, and the
text behind it as the arguments. A line of spaces is no command. -/
def SplitsRight (line : List Byte) : Except Fault (Option Command) → Prop
  | .ok none => firstRun line = []
  | .ok (some c) => firstRun line ≠ [] ∧ IsString c.memory c.cmd (firstRun line) ∧
      IsString c.memory c.args (afterRun line)
  | .error _ => False

/-- The line starts with its command, and behind a command that ends the line no
character is left over from a longer one; or there are spaces in front and the
arguments happen to be the text that is found in their place. -/
def InFront (keys : List Byte) : Prop :=
  firstRun (receivedLine keys) ≠ [] ∧
    if leadingSpaces (receivedLine keys) = [] then
      firstRun (receivedLine keys) = receivedLine keys →
        columnByte keys ((receivedLine keys).length + 1) = 0
    else afterRun (receivedLine keys) =
      (leadingSpaces (receivedLine keys) ++ firstRun (receivedLine keys)).drop
        ((firstRun (receivedLine keys)).length + 1)

instance (keys : List Byte) : Decidable (InFront keys) := inferInstanceAs (Decidable (_ ∧ ite ..))

theorem empty_string {memory : Nat → Byte} {start : Nat} :
    IsString memory start [] ↔ memory start = 0 :=
  ⟨fun string => string.ends, fun zero => ⟨by simp [Stands], by simp, zero⟩⟩

/-- The interpreter splits a line as it should exactly when the command is in
front of it. -/
theorem splits_iff (memory : Nat → Byte) (keys : List Byte) (e : Editor)
    (taken : uartInString (cleared memory) 0 buffsize (keys ++ [carriageReturn]) = .returned e [])
    (some_text : receivedLine keys ≠ []) (short : (receivedLine keys).length ≤ 254) :
    SplitsRight (receivedLine keys) (splitLine e.memory) ↔ InFront keys := by
  have string := delivered_string taken
  rw [splitLine_eq string some_text (by simp only [buffsize]; omega), InFront]
  by_cases none_found : firstRun (receivedLine keys) = []
  · rw [if_pos none_found]
    simp [SplitsRight, none_found]
  · rw [if_neg none_found, SplitsRight]
    refine and_congr_right fun _ => (and_iff_right (cut_run string)).trans ?_
    by_cases front : leadingSpaces (receivedLine keys) = []
    · rw [if_pos front]
      by_cases whole : firstRun (receivedLine keys) = receivedLine keys
      · obtain ⟨same, behind, nothing⟩ := args_behind string whole
        rw [same, behind, nothing, empty_string,
          delivered_byte taken (by simp only [buffsize]; omega)]
        exact ⟨fun zero _ => zero, fun always => always whole⟩
      · exact iff_of_true (args_found string front whole) fun same => absurd same whole
    · rw [if_neg front]
      have shifted := args_shifted string front
      constructor
      · exact fun found => found.unique shifted
      · intro same
        rwa [same]

theorem splits_time_reset :
    ∃ e, uartInString (cleared fun _ => 0xFF) 0 buffsize (ascii "time reset" ++ [carriageReturn]) =
        .returned e [] ∧
      SplitsRight (ascii "time reset") (splitLine e.memory) := by
  have taken : ∃ e, uartInString (cleared fun _ => 0xFF) 0 buffsize
      (ascii "time reset" ++ [carriageReturn]) = .returned e [] := ⟨_, rfl⟩
  obtain ⟨e, taken⟩ := taken
  exact ⟨e, taken, (splits_iff _ (ascii "time reset") e taken (by decide) (by decide)).mpr (by decide)⟩

/-- A space in front of `time reset` hides the argument. -/
theorem leading_space_hides_argument :
    ¬ ∀ (memory : Nat → Byte) (keys : List Byte) (e : Editor),
      uartInString (cleared memory) 0 buffsize (keys ++ [carriageReturn]) = .returned e [] →
      receivedLine keys ≠ [] → (receivedLine keys).length ≤ 254 →
      SplitsRight (receivedLine keys) (splitLine e.memory) := by
  intro always
  have taken : ∃ e, uartInString (cleared fun _ => 0xFF) 0 buffsize
      (ascii " time reset" ++ [carriageReturn]) = .returned e [] ∧
      ∃ c, splitLine e.memory = .ok (some c) ∧ c.memory (c.args + 0) = 0 := ⟨_, rfl, _, rfl, rfl⟩
  obtain ⟨e, taken, c, split, nothing⟩ := taken
  have right := always _ (ascii " time reset") e taken (by decide) (by decide)
  rw [split] at right
  have first := right.2.2.stands 0 (by decide)
  exact absurd (nothing.symm.trans first) (by decide)

end MulticoreRtos.Interpreter
