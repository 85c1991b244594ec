import MulticoreRtos.LineInput

/-!
What a call of `uart_in_string` leaves behind once a line has been ended: the
buffer, and the row of the terminal that got the echo. Both follow the edited
line key by key.
-/

namespace MulticoreRtos.LineEcho

open UartTransmit (Byte)
open LineInput

/-! A row of a terminal, as wide as it needs to be. -/

structure Row where
  cells : Nat → Byte
  cursor : Nat

def Printable (data : Byte) : Prop := space ≤ data ∧ data < delete

instance (data : Byte) : Decidable (Printable data) := inferInstanceAs (Decidable (_ ∧ _))

def Row.put (row : Row) (data : Byte) : Row :=
  if Printable data then ⟨Function.update row.cells row.cursor data, row.cursor + 1⟩
  else if data = backspace then { row with cursor := row.cursor - 1 }
  else row

def Row.replay (row : Row) (bytes : List Byte) : Row := bytes.foldl Row.put row

structure Shows (row : Row) (chars : List Byte) (later : Row) : Prop where
  cursor : later.cursor = row.cursor + chars.length
  before : ∀ column < row.cursor, later.cells column = row.cells column
  text : ∀ index (inside : index < chars.length), later.cells (row.cursor + index) = chars[index]
  blank : ∀ column, later.cursor ≤ column → later.cells column = space

section Rows
variable {row later : Row} {line : List Byte} {data : Byte}

theorem not_printable_backspace : ¬ Printable backspace := by decide

theorem put_back (row : Row) : row.put backspace = { row with cursor := row.cursor - 1 } := by
  rw [Row.put, if_neg not_printable_backspace, if_pos rfl]

theorem put_printable (row : Row) (printable : Printable data) :
    row.put data = ⟨Function.update row.cells row.cursor data, row.cursor + 1⟩ := by
  rw [Row.put, if_pos printable]

theorem Shows.typed (shows : Shows row line later) (printable : Printable data) :
    Shows row (line ++ [data]) (later.put data) := by
  obtain ⟨cursor, before, text, blank⟩ := shows
  rw [put_printable later printable]
  refine ⟨?_, fun column left => ?_, fun index inside => ?_, fun column right => ?_⟩
  · rw [List.length_append, List.length_singleton, cursor]
    rfl
  · have other : column ≠ later.cursor := by omega
    exact (Function.update_of_ne other _ _).trans (before column left)
  · rw [List.length_append, List.length_singleton] at inside
    by_cases last : index = line.length
    · subst last
      simp [cursor]
    · have other : row.cursor + index ≠ later.cursor := by omega
      rw [List.getElem_append_left (by omega), ← text index (by omega)]
      exact Function.update_of_ne other _ _
  · simp only at right
    have other : column ≠ later.cursor := by omega
    exact (Function.update_of_ne other _ _).trans (blank column (by omega))

theorem Shows.rubbed_out {last : Byte} (shows : Shows row (line ++ [last]) later) :
    Shows row line (later.replay [backspace, space, backspace]) := by
  obtain ⟨cursor, before, text, blank⟩ := shows
  rw [List.length_append, List.length_singleton] at cursor
  have blanked : later.replay [backspace, space, backspace] =
      ⟨Function.update later.cells (later.cursor - 1) space, later.cursor - 1⟩ := by
    rw [Row.replay, List.foldl_cons, List.foldl_cons, List.foldl_cons, List.foldl_nil, put_back,
      put_printable _ (by decide), put_back]
    rfl
  rw [blanked]
  refine ⟨?_, fun column left => ?_, fun index inside => ?_, fun column right => ?_⟩
  · simp only
    omega
  · have other : column ≠ later.cursor - 1 := by omega
    exact (Function.update_of_ne other _ _).trans (before column left)
  · have other : row.cursor + index ≠ later.cursor - 1 := by omega
    have kept := text index (by simp; omega)
    rw [List.getElem_append_left inside] at kept
    exact (Function.update_of_ne other _ _).trans kept
  · simp only at right
    by_cases here : column = later.cursor - 1
    · exact here ▸ Function.update_self ..
    · exact (Function.update_of_ne here _ _).trans (blank column (by omega))

end Rows

def afterKeys (memory : Nat → Byte) (buff buffSize : Nat) (keys : List Byte) : Editor :=
  keys.foldl (edit buffSize) ⟨memory, buff, 0, [], []⟩

/-- The last byte typed into a column, even if it has been deleted since. -/
def lastTyped (column : Nat) (keys : List Byte) : List Byte × Byte :=
  keys.foldl (fun (line, last) inchar =>
    (typed line inchar, if ¬ Rubout inchar ∧ line.length = column then inchar else last)) ([], 0)

section Keys
variable {memory : Nat → Byte} {buff buffSize : Nat} {keys rest : List Byte} {inchar : Byte}

theorem afterKeys_append :
    afterKeys memory buff buffSize (keys ++ [inchar]) =
      edit buffSize (afterKeys memory buff buffSize keys) inchar :=
  List.foldl_concat ..

theorem editedLine_append : editedLine (keys ++ [inchar]) = typed (editedLine keys) inchar :=
  List.foldl_concat ..

structure Line (buffSize : Nat) (keys : List Byte) : Prop where
  open_line : carriageReturn ∉ keys
  fits : Fits buffSize keys

theorem Line.front (line : Line buffSize (keys ++ [inchar])) : Line buffSize keys :=
  ⟨fun member => line.open_line (List.mem_append_left _ member),
    fun early before => line.fits early (before.trans (List.prefix_append _ _))⟩

theorem Line.room (line : Line buffSize keys) : (editedLine keys).length < buffSize :=
  line.fits keys (List.prefix_refl _) line.open_line

theorem keys_held (memory : Nat → Byte) (buff : Nat) (line : Line buffSize keys) :
    Holds buff buffSize (afterKeys memory buff buffSize keys) (editedLine keys) := by
  induction keys using List.reverseRecOn with
  | nil => exact start_holds memory buff buffSize
  | append_singleton keys inchar ih =>
      rw [afterKeys_append, editedLine_append]
      exact edit_holds (ih line.front) line.front.room inchar

theorem loop_keys {e : Editor} {line : List Byte} (holds : Holds buff buffSize e line)
    (open_line : carriageReturn ∉ keys) (spared : Spared buffSize line keys) :
    inLoop buffSize e (keys ++ carriageReturn :: rest) =
      .returned (store (outBytes (keys.foldl (edit buffSize) e) [carriageReturn, lineFeed]) 0)
        rest := by
  induction keys generalizing e line with
  | nil => rw [List.nil_append, inLoop, if_pos rfl, List.foldl_nil]
  | cons inchar keys ih =>
      obtain ⟨other, later⟩ := not_or.mp (mt List.mem_cons.mpr open_line)
      have still := (spared_cons spared.now (Ne.symm other)).mp spared
      have edited := edit_holds holds spared.now inchar
      rw [List.cons_append, inLoop, if_neg (Ne.symm other), if_pos (edited.count ▸ still.now),
        List.foldl_cons]
      exact ih edited later still

theorem line_returned (memory : Nat → Byte) (buff : Nat) (line : Line buffSize keys)
    (rest : List Byte) :
    uartInString memory buff buffSize (keys ++ carriageReturn :: rest) =
      .returned (store (outBytes (afterKeys memory buff buffSize keys)
        [carriageReturn, lineFeed]) 0) rest :=
  loop_keys (start_holds memory buff buffSize) line.open_line line.fits

theorem keys_shown (line : Line buffSize keys)
    (printable : ∀ key ∈ keys, ¬ Rubout key → Printable key) (row : Row)
    (blank : ∀ column, row.cursor ≤ column → row.cells column = space) :
    Shows row (editedLine keys) (row.replay (afterKeys memory buff buffSize keys).echo) := by
  induction keys using List.reverseRecOn with
  | nil => exact ⟨rfl, fun _ _ => rfl, fun _ inside => absurd inside (Nat.not_lt_zero _), blank⟩
  | append_singleton keys inchar ih =>
      have held := keys_held memory buff line.front
      have shown := ih line.front fun key member => printable key (List.mem_append_left _ member)
      have room := line.front.room
      rw [afterKeys_append, editedLine_append]
      generalize afterKeys memory buff buffSize keys = e at held shown
      generalize editedLine keys = text at held shown room
      by_cases rubout : Rubout inchar
      · rw [edit, if_pos rubout, typed, if_pos rubout]
        cases text using List.reverseRecOn with
        | nil =>
            have nothing : e.length = 0 := held.count
            rw [if_pos nothing]
            exact shown
        | append_singleton text last _ =>
            have some_text : e.length ≠ 0 := by simp [held.count]
            rw [if_neg some_text, List.dropLast_concat, outBytes, Row.replay, List.foldl_append]
            exact shown.rubbed_out
      · rw [edit, if_neg rubout, if_pos (held.count ▸ room), typed, if_neg rubout, outBytes,
          Row.replay, List.foldl_append]
        exact shown.typed (printable inchar (by simp) rubout)

theorem lastTyped_line (column : Nat) (keys : List Byte) :
    (lastTyped column keys).1 = editedLine keys := by
  induction keys using List.reverseRecOn with
  | nil => rfl
  | append_singleton keys inchar ih =>
      rw [lastTyped, List.foldl_concat, ← lastTyped, editedLine_append]
      simp only [ih]

/-- A deletion moves the pointer only: the byte stays in the buffer. -/
theorem keys_left (line : Line buffSize keys) (column : Nat)
    (zeroed : memory (buff + column) = 0) :
    (afterKeys memory buff buffSize keys).memory (buff + column) = (lastTyped column keys).2 := by
  induction keys using List.reverseRecOn with
  | nil => exact zeroed
  | append_singleton keys inchar ih =>
      have held := keys_held memory buff line.front
      have same := ih line.front
      have text := lastTyped_line column keys
      have room := line.front.room
      rw [afterKeys_append, lastTyped, List.foldl_concat, ← lastTyped]
      generalize afterKeys memory buff buffSize keys = e at held same
      simp only [text]
      by_cases rubout : Rubout inchar
      · have untyped : ¬ (¬ Rubout inchar ∧ (editedLine keys).length = column) :=
          fun both => both.1 rubout
        rw [edit, if_pos rubout, if_neg untyped, ← same]
        split <;> rfl
      · rw [edit, if_neg rubout, if_pos (held.count ▸ room)]
        simp only [outBytes, store, held.pointer]
        by_cases here : (editedLine keys).length = column
        · rw [here, if_pos ⟨rubout, rfl⟩, Function.update_self]
        · rw [if_neg (fun both => here both.2), Function.update_of_ne (by omega), same]

/-- Nothing is typed into a column that the line never reaches. -/
theorem lastTyped_outside (line : Line buffSize keys) {column : Nat}
    (outside : buffSize ≤ column + 1) : (lastTyped column keys).2 = 0 := by
  induction keys using List.reverseRecOn with
  | nil => rfl
  | append_singleton keys inchar ih =>
      have text := lastTyped_line column keys
      have grown := line.room
      rw [editedLine_append] at grown
      rw [lastTyped, List.foldl_concat, ← lastTyped]
      simp only [text]
      have elsewhere : ¬ (¬ Rubout inchar ∧ (editedLine keys).length = column) := by
        rintro ⟨character, here⟩
        rw [typed, if_neg character, List.length_append, List.length_singleton] at grown
        omega
      rw [if_neg elsewhere]
      exact ih line.front

theorem taken_spared {e after : Editor} {line : List Byte} (holds : Holds buff buffSize e line)
    (room : line.length < buffSize)
    (taken : inLoop buffSize e (keys ++ [carriageReturn]) = .returned after []) :
    carriageReturn ∉ keys ∧ Spared buffSize line keys := by
  induction keys generalizing e line with
  | nil => exact ⟨List.not_mem_nil, spared_nil room⟩
  | cons inchar keys ih =>
      have edited := edit_holds holds room inchar
      rw [List.cons_append, inLoop] at taken
      by_cases ended : inchar = carriageReturn
      · simp [ended] at taken
      · rw [if_neg ended, edited.count] at taken
        by_cases more : (typed line inchar).length < buffSize
        · rw [if_pos more] at taken
          obtain ⟨later, spared⟩ := ih edited more taken
          exact ⟨by simp [Ne.symm ended, later], (spared_cons room ended).mpr spared⟩
        · simp [more] at taken

end Keys

section Returned
variable {memory : Nat → Byte} {buff buffSize : Nat} {keys : List Byte} {e : Editor}

theorem taken_line (some_bytes : 1 ≤ buffSize)
    (taken : uartInString memory buff buffSize (keys ++ [carriageReturn]) = .returned e []) :
    Line buffSize keys ∧ e.memory = Function.update (afterKeys memory buff buffSize keys).memory
      (buff + (editedLine keys).length) 0 := by
  obtain ⟨open_line, fits⟩ := taken_spared (start_holds memory buff buffSize) some_bytes taken
  have line : Line buffSize keys := ⟨open_line, fits⟩
  have returned := taken.symm.trans (line_returned memory buff line [])
  simp only [Progress.returned.injEq, and_true] at returned
  rw [returned, store, outBytes, (keys_held memory buff line).pointer]
  exact ⟨line, rfl⟩

end Returned

/-- Whatever was typed and deleted, the buffer up to the terminator is the edited
line, and so is what the row shows. -/
theorem line_and_echo (memory : Nat → Byte) (buff buffSize : Nat) (keys rest : List Byte)
    (open_line : carriageReturn ∉ keys) (fits : Fits buffSize keys) :
    ∃ e, uartInString memory buff buffSize (keys ++ carriageReturn :: rest) = .returned e rest ∧
      (∀ index (inside : index < (editedLine keys).length),
        e.memory (buff + index) = (editedLine keys)[index]) ∧
      e.written.head? = some (buff + (editedLine keys).length) ∧
      e.memory (buff + (editedLine keys).length) = 0 ∧
      ∃ shown, e.echo = shown ++ [carriageReturn, lineFeed] ∧
        ((∀ key ∈ keys, ¬ Rubout key → Printable key) →
          ∀ row : Row, (∀ column, row.cursor ≤ column → row.cells column = space) →
            Shows row (editedLine keys) (row.replay shown)) := by
  have line : Line buffSize keys := ⟨open_line, fits⟩
  have held := keys_held memory buff line
  refine ⟨_, line_returned memory buff line rest, fun index inside => ?_, ?_, ?_,
    (afterKeys memory buff buffSize keys).echo, rfl, keys_shown line⟩
  · simp only [store, outBytes, held.pointer]
    rw [Function.update_of_ne (by omega), held.text index inside]
  · simp only [store, outBytes, held.pointer, List.head?_cons]
  · simp only [store, outBytes, held.pointer, Function.update_self]

/-- `ab`, a deletion, `c`, with the prompt already on the row. -/
theorem line_and_echo_retyped :
    ∃ e, uartInString (fun _ => 0) 0x20001000 256 [0x61, 0x62, delete, 0x63, carriageReturn] =
        .returned e [] ∧
      ∃ shown, e.echo = shown ++ [carriageReturn, lineFeed] ∧
        Shows ⟨Function.update (fun _ => space) 0 0x3E, 2⟩ [0x61, 0x63]
          (Row.replay ⟨Function.update (fun _ => space) 0 0x3E, 2⟩ shown) := by
  obtain ⟨e, returned, _, _, _, shown, echo, shows⟩ := line_and_echo (fun _ => 0) 0x20001000 256
    [0x61, 0x62, delete, 0x63] [] (by decide) (by decide)
  refine ⟨e, returned, shown, echo, shows (by decide) _ fun column right => ?_⟩
  have behind : column ≠ 0 := by
    rintro rfl
    exact absurd right (by decide)
  exact Function.update_of_ne behind 0x3E fun _ => space

end MulticoreRtos.LineEcho
