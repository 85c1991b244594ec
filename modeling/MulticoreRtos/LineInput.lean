import Mathlib.Data.List.Infix
import MulticoreRtos.UartTransmit

/-!
`uart_in_string` of `hw/uart.c`. The pointer `buff` and the counter `length` move
together, and the loop is left with the terminator still to be stored. `length`
grows only below `buff_size`, so it does not wrap.
-/

namespace MulticoreRtos.LineInput

open UartTransmit (Byte)

/-- `written` are the addresses stored to, the latest first; `echo` is what
`uart_out_byte` was handed, the oldest first. -/
structure Editor where
  memory : Nat → Byte
  buff : Nat
  length : Nat
  written : List Nat
  echo : List Byte

def carriageReturn : Byte := 0x0D
def lineFeed : Byte := 0x0A
def backspace : Byte := 0x08
def delete : Byte := 0x7F
def space : Byte := 0x20

def Rubout (inchar : Byte) : Prop := inchar = backspace ∨ inchar = delete

instance (inchar : Byte) : Decidable (Rubout inchar) := inferInstanceAs (Decidable (_ ∨ _))

def store (e : Editor) (data : Byte) : Editor :=
  { e with memory := Function.update e.memory e.buff data, written := e.buff :: e.written }

def outBytes (e : Editor) (data : List Byte) : Editor := { e with echo := e.echo ++ data }

/-- The two branches of a pass that stay in the loop. -/
def edit (buffSize : Nat) (e : Editor) (inchar : Byte) : Editor :=
  if Rubout inchar then
    if e.length = 0 then e
    else outBytes { e with buff := e.buff - 1, length := e.length - 1 } [backspace, space, backspace]
  else if e.length < buffSize then
    outBytes { store e inchar with buff := e.buff + 1, length := e.length + 1 } [inchar]
  else e

inductive Progress where
  /-- in `fifo_get`, with nothing to get -/
  | reading (e : Editor)
  | returned (e : Editor) (unread : List Byte)

def inLoop (buffSize : Nat) (e : Editor) : List Byte → Progress
  | [] => .reading e
  | inchar :: rest =>
      if inchar = carriageReturn then
        .returned (store (outBytes e [carriageReturn, lineFeed]) 0) rest
      else if (edit buffSize e inchar).length < buffSize then
        inLoop buffSize (edit buffSize e inchar) rest
      else .returned (store (edit buffSize e inchar) 0) rest

def uartInString (memory : Nat → Byte) (buff buffSize : Nat) (received : List Byte) : Progress :=
  inLoop buffSize ⟨memory, buff, 0, [], []⟩ received

/-! The line that is being edited, whatever holds it. -/

def typed (line : List Byte) (inchar : Byte) : List Byte :=
  if Rubout inchar then line.dropLast else line ++ [inchar]

def editedLine (received : List Byte) : List Byte := received.foldl typed []

/-- Until the line is ended it never has `buffSize` characters. -/
def Fits (buffSize : Nat) (received : List Byte) : Prop :=
  ∀ keys, keys <+: received → carriageReturn ∉ keys → (editedLine keys).length < buffSize

instance (buffSize : Nat) (received : List Byte) : Decidable (Fits buffSize received) :=
  decidable_of_iff
    (∀ keys ∈ received.inits, carriageReturn ∉ keys → (editedLine keys).length < buffSize)
    (forall_congr' fun keys => imp_congr_left (List.mem_inits keys received))

/-- Every store so far was into the buffer, and a call that has returned left a
terminator there. -/
def InBuffer (buff buffSize : Nat) : Progress → Prop
  | .reading e => ∀ address ∈ e.written, buff ≤ address ∧ address < buff + buffSize
  | .returned e _ =>
      (∀ address ∈ e.written, buff ≤ address ∧ address < buff + buffSize) ∧
        ∃ index < buffSize, e.memory (buff + index) = 0

structure Holds (base buffSize : Nat) (e : Editor) (chars : List Byte) : Prop where
  pointer : e.buff = base + chars.length
  count : e.length = chars.length
  written : ∀ address ∈ e.written, base ≤ address ∧ address < base + buffSize
  text : ∀ index (inside : index < chars.length), e.memory (base + index) = chars[index]

section Passes
variable {base buffSize : Nat} {e : Editor} {line rest : List Byte} {inchar : Byte}

theorem start_holds (memory : Nat → Byte) (base buffSize : Nat) :
    Holds base buffSize ⟨memory, base, 0, [], []⟩ [] :=
  ⟨rfl, rfl, by simp, by simp⟩

theorem typed_length (line : List Byte) (inchar : Byte) :
    (typed line inchar).length ≤ line.length + 1 := by
  unfold typed
  split
  · rw [List.length_dropLast]
    omega
  · simp

theorem edit_holds (holds : Holds base buffSize e line) (room : line.length < buffSize)
    (inchar : Byte) : Holds base buffSize (edit buffSize e inchar) (typed line inchar) := by
  obtain ⟨pointer, count, written, text⟩ := holds
  by_cases rubout : Rubout inchar
  · rw [edit, if_pos rubout, typed, if_pos rubout]
    cases line using List.reverseRecOn with
    | nil =>
        rw [List.length_nil] at count
        rw [if_pos count]
        exact ⟨pointer, count, written, text⟩
    | append_singleton line last _ =>
        simp only [List.length_append, List.length_singleton] at pointer count text
        rw [if_neg (by omega), List.dropLast_concat]
        refine ⟨?_, ?_, written, fun index inside => ?_⟩
        · simp only [outBytes]
          omega
        · simp only [outBytes]
          omega
        · rw [outBytes, text index (by omega), List.getElem_append_left inside]
  · rw [edit, if_neg rubout, if_pos (by omega), typed, if_neg rubout]
    refine ⟨?_, ?_, ?_, fun index inside => ?_⟩
    · simp only [outBytes, List.length_append, List.length_singleton]
      omega
    · simp only [outBytes, List.length_append, List.length_singleton]
      omega
    · intro address member
      rcases List.mem_cons.mp member with rfl | earlier
      · omega
      · exact written address earlier
    · simp only [List.length_append, List.length_singleton] at inside
      simp only [outBytes, store, pointer]
      by_cases last : index = line.length
      · subst last
        simp
      · rw [Function.update_of_ne (by omega), text index (by omega),
          List.getElem_append_left (by omega)]

theorem terminated (holds : Holds base buffSize e line) (room : line.length < buffSize) :
    InBuffer base buffSize (.returned (store e 0) rest) := by
  obtain ⟨pointer, _, written, _⟩ := holds
  refine ⟨fun address member => ?_, line.length, room, ?_⟩
  · rcases List.mem_cons.mp member with rfl | earlier
    · omega
    · exact written address earlier
  · simp only [store, pointer, Function.update_self]

/-- A full line is followed by a terminator behind the buffer. -/
theorem overrun (holds : Holds base buffSize e line) (full : line.length = buffSize) :
    ¬ InBuffer base buffSize (.returned (store e 0) rest) := by
  rintro ⟨inside, _⟩
  have last := (inside e.buff List.mem_cons_self).2
  rw [holds.pointer, full] at last
  exact Nat.lt_irrefl _ last

/-- What is still to come leaves a line of `buffSize` characters out. -/
def Spared (buffSize : Nat) (line received : List Byte) : Prop :=
  ∀ keys, keys <+: received → carriageReturn ∉ keys → (keys.foldl typed line).length < buffSize

theorem spared_nil (room : line.length < buffSize) : Spared buffSize line [] := by
  intro keys early _
  rw [List.prefix_nil.mp early]
  exact room

theorem spared_return (room : line.length < buffSize) :
    Spared buffSize line (carriageReturn :: rest) := by
  intro keys early typed_only
  cases keys with
  | nil => exact room
  | cons key keys =>
      obtain ⟨rfl, _⟩ := List.cons_prefix_cons.mp early
      exact absurd List.mem_cons_self typed_only

theorem spared_cons (room : line.length < buffSize) (other : inchar ≠ carriageReturn) :
    Spared buffSize line (inchar :: rest) ↔ Spared buffSize (typed line inchar) rest := by
  constructor
  · intro spared keys early typed_only
    exact spared (inchar :: keys) (List.cons_prefix_cons.mpr ⟨rfl, early⟩)
      (by simp [other.symm, typed_only])
  · intro spared keys early typed_only
    cases keys with
    | nil => exact room
    | cons key keys =>
        obtain ⟨rfl, later⟩ := List.cons_prefix_cons.mp early
        exact spared keys later fun member => typed_only (List.mem_cons_of_mem _ member)

theorem Spared.now (spared : Spared buffSize line rest) : line.length < buffSize :=
  spared [] List.nil_prefix List.not_mem_nil

theorem loop_inside (holds : Holds base buffSize e line) (room : line.length < buffSize)
    (received : List Byte) :
    InBuffer base buffSize (inLoop buffSize e received) ↔ Spared buffSize line received := by
  induction received generalizing e line with
  | nil => exact iff_of_true holds.written (spared_nil room)
  | cons inchar rest ih =>
      by_cases ended : inchar = carriageReturn
      · subst ended
        rw [inLoop, if_pos rfl]
        have echoed : Holds base buffSize (outBytes e [carriageReturn, lineFeed]) line :=
          ⟨holds.pointer, holds.count, holds.written, holds.text⟩
        exact iff_of_true (terminated echoed room) (spared_return room)
      · have edited := edit_holds holds room inchar
        rw [inLoop, if_neg ended, spared_cons room ended, edited.count]
        by_cases more : (typed line inchar).length < buffSize
        · rw [if_pos more]
          exact ih edited more
        · have full : (typed line inchar).length = buffSize := by
            have grown := typed_length line inchar
            omega
          rw [if_neg more]
          exact iff_of_false (overrun edited full) fun spared => more spared.now

end Passes

/-- The stores stay in the buffer exactly when the line never has as many
characters as the buffer has bytes: the terminator has no byte of its own. -/
theorem stays_inside_iff (memory : Nat → Byte) (buff buffSize : Nat) (some_bytes : 1 ≤ buffSize)
    (received : List Byte) :
    InBuffer buff buffSize (uartInString memory buff buffSize received) ↔ Fits buffSize received :=
  loop_inside (start_holds memory buff buffSize) some_bytes received

theorem stays_inside_rubbed_out :
    InBuffer 0x20001000 3 (uartInString (fun _ => 0xFF) 0x20001000 3
      [0x61, 0x62, backspace, 0x63, carriageReturn]) := by
  exact (stays_inside_iff (fun _ => 0xFF) 0x20001000 3 (by decide) _).mpr (by decide)

/-- Four characters for a buffer of four bytes. -/
theorem terminator_behind_buffer :
    ¬ ∀ (memory : Nat → Byte) (buff buffSize : Nat), 1 ≤ buffSize → ∀ received,
      InBuffer buff buffSize (uartInString memory buff buffSize received) := by
  intro always
  have inside := (always (fun _ => 0xFF) 0x20001000 4 (by decide) [0x61, 0x62, 0x63, 0x64]).1
  exact absurd (inside 0x20001004 (by decide)) (by decide)

end MulticoreRtos.LineInput
