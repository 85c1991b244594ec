import MulticoreRtos.Decimal
import MulticoreRtos.RawTime

/-!
What the interpreter is for. A shell knows the commands by their names, takes the
text behind the first space as their arguments, keeps the time of the last reset
and answers each line. There is no buffer here, nothing is hashed and no time is
reduced to a word.
-/

namespace MulticoreRtos.Shell

open UartTransmit (Byte)
open LineInput Interpreter

structure Readings where
  timehr : Nat
  timelr : Nat
  cpu0Idle : Nat
  cpu1Idle : Nat
  runningThreadCnt : Nat
  activeThreadCnt : Nat
  lifetimeThreadCnt : Nat
  heap : Heap.HeapStats

def Readings.now (r : Readings) : Nat := RawTime.joined r.timehr r.timelr / 1000

inductive Request where
  | uptime
  | reset
  | wrongArgument
  | stats
  | sleep (ms : Int)
  | noNumber
  | help
  | unknown
  deriving DecidableEq

def timeRequest (arguments : List Byte) : Request :=
  if firstWord arguments = [] then .uptime
  else if firstWord arguments = ascii "reset" then .reset
  else .wrongArgument

def sleepRequest (arguments : List Byte) : Request := (readInt arguments).elim .noNumber .sleep

def request (line : List Byte) : Request :=
  if firstRun line = ascii "time" then timeRequest (afterRun line)
  else if firstRun line = ascii "stats" then .stats
  else if firstRun line = ascii "sleep" then sleepRequest (afterRun line)
  else if firstRun line = ascii "help" then .help
  else .unknown

def Request.text : Request → List Byte
  | .uptime => ascii "time"
  | .reset => ascii "time reset"
  | .wrongArgument => ascii "time ?"
  | .stats => ascii "stats"
  | .sleep ms => ascii "sleep " ++ ascii (toString ms)
  | .noNumber => ascii "sleep"
  | .help => ascii "help"
  | .unknown => ascii "?"

def Request.nap : Request → Option Int
  | .sleep ms => some ms
  | _ => none

structure Console where
  started : Nat
  shown : List Byte
  naps : List Int

def tenths (idle : Nat) : List Byte := decimal (idle / 10) ++ ascii "." ++ decimal (idle % 10)

def report (r : Readings) : List Byte :=
  ascii "CPU0 idle percentage: " ++ tenths r.cpu0Idle ++ ascii "\r\nCPU1 idle percentage: " ++
    tenths r.cpu1Idle ++ ascii "\r\n" ++
  (ascii "\r\nRunning Threads: " ++ decimal r.runningThreadCnt ++ ascii "\r\nActive Threads: " ++
    decimal r.activeThreadCnt ++ ascii "\r\nLifetime Threads: " ++ decimal r.lifetimeThreadCnt ++
    ascii "\r\n") ++
  (ascii "\r\nHeap size: " ++ decimal r.heap.size ++ ascii "\r\nHeap used: " ++ decimal r.heap.used ++
    ascii "\r\nHeap free: " ++ decimal r.heap.free ++ ascii "\r\n")

/-- The time since the last reset is shown as an `int`: from 2^31 ms on it wraps. -/
def reply (r : Readings) (started : Nat) : Request → List Byte
  | .uptime =>
      ascii "System uptime: " ++ ascii (toString (((r.now : Int) - started).bmod (2 ^ 32))) ++
        ascii " ms\r\n"
  | .reset => ascii "System time reset.\r\n"
  | .wrongArgument => ascii "Error: invalid argument\r\n"
  | .stats => report r
  | .sleep ms => ascii "Sleeping for: " ++ ascii (toString ms) ++ ascii " ms.\r\n"
  | .noNumber => ascii "Error: invalid number of arguments\r\n"
  | .help => helpMessage
  | .unknown => ascii "Error: unknown command.\r\n"

def obey (r : Readings) (c : Console) (request : Request) : Console where
  started := if request = .reset then r.now else c.started
  shown := c.shown ++ reply r c.started request
  naps := c.naps ++ request.nap.toList

/-- A deletion on an empty line is not echoed. -/
def echoed : List Byte → List Byte → List Byte
  | _, [] => []
  | line, key :: keys =>
      (if Rubout key then if line = [] then [] else [backspace, space, backspace] else [key]) ++
        echoed (typed line key) keys

def prompt (keys : List Byte) : List Byte :=
  ascii "> " ++ echoed [] keys ++ [carriageReturn, lineFeed]

def turn (c : Console) (keys : List Byte) (r : Readings) : Console :=
  if receivedLine keys = [] then { c with shown := c.shown ++ prompt keys }
  else obey r { c with shown := c.shown ++ prompt keys } (request (receivedLine keys))

def greeting : List Byte := ascii "\x1B[2J\x1B[H" ++ ascii "Enter a command:\r\n"

def switchedOn : Console := ⟨0, greeting, []⟩

/-! The text of a request asks for the request. -/

def Request.IsInt : Request → Prop
  | .sleep ms => -2 ^ 31 ≤ ms ∧ ms < 2 ^ 31
  | _ => True

theorem request_text (asked : Request) (number : asked.IsInt) : request asked.text = asked := by
  cases asked with
  | sleep ms =>
      obtain ⟨low, high⟩ := number
      have command : firstRun (Request.sleep ms).text = ascii "sleep" := rfl
      have argument : afterRun (Request.sleep ms).text = ascii (toString ms) := rfl
      rw [request, command, argument, sleepRequest, readInt_ascii ms low high]
      rfl
  | uptime => rfl
  | reset => rfl
  | wrongArgument => rfl
  | stats => rfl
  | noNumber => rfl
  | help => rfl
  | unknown => rfl

end MulticoreRtos.Shell
