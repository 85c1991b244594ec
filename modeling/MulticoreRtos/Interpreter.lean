import Mathlib.Data.BitVec
import MulticoreRtos.CString
import MulticoreRtos.HeapStats
import MulticoreRtos.LineEcho

/-!
One turn of the loop of `interpreter` in `os/interpreter.c`: a line from
`uart_in_string`, its split into command and arguments, and the command.
Addresses are offsets into `input_buffer`. An access behind an array, or through
a null pointer, is a `Fault` and ends the turn.
-/

namespace MulticoreRtos.Interpreter

open UartTransmit (Byte)
open LineInput CString

inductive Fault where
  | nullPointer
  | outsideBuffer
  | outsideLocal
  deriving DecidableEq

def buffsize : Nat := 256

/-- `char s[20]` -/
def sizeofS : Nat := 20

def ascii (text : String) : List Byte := text.toList.map fun c => BitVec.ofNat 8 c.toNat

def hash (data : List Byte) : BitVec 32 :=
  data.foldl (fun hash item => (hash ^^^ item.setWidth 32) * 0x01000193) 0x811c9dc5

def timeHash : BitVec 32 := 1564253156
def statsHash : BitVec 32 := 1781603564
def sleepHash : BitVec 32 := 2313861896
def helpHash : BitVec 32 := 946971642
def resetHash : BitVec 32 := 1695364032

example : hash (ascii "time") = timeHash ∧ hash (ascii "stats") = statsHash ∧
    hash (ascii "sleep") = sleepHash ∧ hash (ascii "help") = helpHash ∧
    hash (ascii "reset") = resetHash := by decide

def helpMessage : List Byte :=
  ascii "### Commands:\r\n" ++
  ascii "help:           print this message\r\n" ++
  ascii "time [reset]:   print (or reset) the current system time\r\n" ++
  ascii "stats:          print various OS diagnostics\r\n" ++
  ascii "sleep <ms>:     sleeps interpreter thread for specified ms\r\n" ++
  ascii "\r\n"

/-- `memset(input_buffer, 0, sizeof(input_buffer))` -/
def cleared (memory : Nat → Byte) : Nat → Byte :=
  fun address => if address < buffsize then 0 else memory address

structure Command where
  memory : Nat → Byte
  cmd : Nat
  args : Nat

/-- A read that comes to the end of `input_buffer` is a fault. -/
def inside {Answer : Type} : Option Answer → Except Fault Answer
  | some answer => .ok answer
  | none => .error .outsideBuffer

/-- The line split in two; `none` is `continue`. -/
def splitLine (memory : Nat → Byte) : Except Fault (Option Command) :=
  if memory 0 = 0 then .ok none
  else do
    let (memory, token) ← inside (strtok space memory buffsize 0)
    match token with
    -- `strlen(NULL)`
    | none => .error .nullPointer
    | some cmd =>
        let length ← inside (strlen memory buffsize cmd)
        .ok (some ⟨memory, cmd, length + 1⟩)

def white (item : Byte) : Bool := item = 0x20 || (decide (0x09 ≤ item) && decide (item ≤ 0x0D))

def digit (item : Byte) : Bool := decide (0x30 ≤ item) && decide (item ≤ 0x39)

def number (digits : List Byte) : Nat :=
  digits.foldl (fun value item => 10 * value + (item.toNat - 0x30)) 0

def skipSign (memory : Nat → Byte) (first : Nat) : Nat :=
  if memory first = 0x2B ∨ memory first = 0x2D then first + 1 else first

/-- The conversion `%d`, `none` inside when nothing was converted. A number that
is not an `int` becomes the nearest one. -/
def scanInt (memory : Nat → Byte) (limit start : Nat) : Option (Option Int) := do
  let first ← scanTo (fun item => !white item) memory limit start
  let digits := skipSign memory first
  let last ← scanTo (fun item => !digit item) memory limit digits
  let value := number (span memory digits last)
  some (if last = digits then none
    else if memory first = 0x2D then some (max (-value) (-2 ^ 31))
    else some (min value (2 ^ 31 - 1)))

def decimal (word : Nat) : List Byte := ascii (toString (BitVec.ofNat 32 word).toInt)

def snprintf (memory : Nat → Byte) (size : Nat) (text : List Byte) : Nat → Byte :=
  let length := min text.length (size - 1)
  fun address =>
    if address < length then text.getD address 0 else if address = length then 0 else memory address

/-- What the commands ask the other modules for. -/
structure Diagnostics where
  mstime : Nat
  cpu0Idle : Nat
  cpu1Idle : Nat
  runningThreadCnt : Nat
  activeThreadCnt : Nat
  lifetimeThreadCnt : Nat
  heap : Heap.HeapStats

/-- `stored` is how many bytes `sscanf` wrote into `s`. -/
structure Outcome where
  memory : Nat → Byte
  output : List Byte
  stored : Nat
  cleared : Bool
  slept : Option Nat

def printBuffer (o : Outcome) (text : List Byte) : Except Fault Outcome := do
  let memory := snprintf o.memory buffsize text
  let printed ← inside (readString memory buffsize 0)
  .ok { o with memory, output := o.output ++ printed }

def quiet (memory : Nat → Byte) : Outcome := ⟨memory, [], 0, false, none⟩

/-- `%s` fills at most one argument, so more than one is never counted. -/
def time (d : Diagnostics) (c : Command) : Except Fault Outcome := do
  let word ← inside (scanWord white c.memory buffsize c.args)
  if word = [] then
    printBuffer (quiet c.memory) (ascii "System uptime: " ++ decimal d.mstime ++ ascii " ms\r\n")
  else if sizeofS < word.length + 1 then .error .outsideLocal
  else
    let o := { quiet c.memory with stored := word.length + 1 }
    if hash word = resetHash then
      .ok { o with cleared := true, output := ascii "System time reset.\r\n" }
    else .ok { o with output := ascii "Error: invalid argument\r\n" }

def stats (d : Diagnostics) (c : Command) : Except Fault Outcome := do
  let percentage (idle : Nat) := decimal (idle / 10) ++ ascii "." ++ decimal (idle % 10)
  let o ← printBuffer (quiet c.memory) (ascii "CPU0 idle percentage: " ++ percentage d.cpu0Idle ++
    ascii "\r\nCPU1 idle percentage: " ++ percentage d.cpu1Idle ++ ascii "\r\n")
  let o ← printBuffer o (ascii "\r\nRunning Threads: " ++ decimal d.runningThreadCnt ++
    ascii "\r\nActive Threads: " ++ decimal d.activeThreadCnt ++
    ascii "\r\nLifetime Threads: " ++ decimal d.lifetimeThreadCnt ++ ascii "\r\n")
  printBuffer o (ascii "\r\nHeap size: " ++ decimal d.heap.size ++ ascii "\r\nHeap used: " ++
    decimal d.heap.used ++ ascii "\r\nHeap free: " ++ decimal d.heap.free ++ ascii "\r\n")

def sleep (c : Command) : Except Fault Outcome := do
  let converted ← inside (scanInt c.memory buffsize c.args)
  match converted with
  | none => .ok { quiet c.memory with output := ascii "Error: invalid number of arguments\r\n" }
  | some value =>
      let sleepTime := (BitVec.ofInt 32 value).toNat
      let o ← printBuffer (quiet c.memory)
        (ascii "Sleeping for: " ++ decimal sleepTime ++ ascii " ms.\r\n")
      .ok { o with slept := some sleepTime }

/-- `switch (hash(cmd))` -/
def command (d : Diagnostics) (c : Command) : Except Fault Outcome := do
  let cmd ← inside (readString c.memory buffsize c.cmd)
  if hash cmd = timeHash then time d c
  else if hash cmd = statsHash then stats d c
  else if hash cmd = sleepHash then sleep c
  else if hash cmd = helpHash then .ok { quiet c.memory with output := helpMessage }
  else .ok { quiet c.memory with output := ascii "Error: unknown command.\r\n" }

/-- The turn from `uart_in_string` on. -/
def processLine (d : Diagnostics) (memory : Nat → Byte) : Except Fault (Option Outcome) := do
  match ← splitLine memory with
  | none => .ok none
  | some c =>
      let o ← command d c
      .ok (some o)

/-! What the line is and where its parts are. -/

/-- The text in the buffer: a received NUL ends it. -/
def receivedLine (keys : List Byte) : List Byte :=
  (editedLine keys).takeWhile fun item => decide (item ≠ 0)

def blank (item : Byte) : Bool := decide (item = space)

def nonBlank (item : Byte) : Bool := decide (item ≠ space)

def leadingSpaces (line : List Byte) : List Byte := line.takeWhile blank

def firstRun (line : List Byte) : List Byte := (line.dropWhile blank).takeWhile nonBlank

def afterRun (line : List Byte) : List Byte := ((line.dropWhile blank).dropWhile nonBlank).tail

def columnByte (keys : List Byte) (column : Nat) : Byte :=
  if column = (editedLine keys).length then 0 else (LineEcho.lastTyped column keys).2

end MulticoreRtos.Interpreter
