import MulticoreRtos.Heap

/-!
The blocking FIFO of `os/ipc.c`. An element is a value of a type `Value`, and the
flexible array `data` is a map from element slots to values. `fifo_init` stores
the byte count of the allocation in `size`, and `size` is the modulus of both
indices.
-/

namespace MulticoreRtos.MpmcFifo

variable {Value : Type}

/-- The semaphores are their values here: a wait or a signal is one step. -/
structure Fifo (Value : Type) where
  mutex : Nat
  full : Int
  empty : Int
  size : Nat
  elementSize : Nat
  head : Nat
  tail : Nat
  data : Nat → Value

/-- Three semaphores of 8 bytes, `size`, `element_size` with its padding, `head`
and `tail`. -/
def sizeofFifo : Nat := 40

def int32Max : Int := 2147483647
def int32Min : Int := -2147483648

/-- The conversion of a 32-bit unsigned value to `int32_t`. -/
def toInt32 (x : Nat) : Int := if x < 2 ^ 31 then x else (x : Int) - 2 ^ 32

def initByteCount (fifoSize elementSize : Nat) : Nat :=
  (sizeofFifo + fifoSize * elementSize) % 2 ^ 32

/-- `memory` is what the allocated block held before. The answer is the heap
tree and the new FIFO, or no FIFO if `malloc` returns `NULL`. -/
def fifoInit (heapPtr : Nat) (tree : Heap.Tree) (memory : Nat → Value)
    (fifoSize elementSize : Nat) : Option (Heap.Tree × Option (Fifo Value)) :=
  let size := initByteCount fifoSize elementSize
  (Heap.malloc heapPtr tree size).map fun (tree, ptr) =>
    if ptr = Heap.null then (tree, none)
    else (tree, some ⟨0, toInt32 fifoSize, 0, size, elementSize, 0, 0, memory⟩)

/-- `none`: the caller blocks, or the decrement is undefined. -/
def cWait (value : Int) : Option Int :=
  if value = 0 ∨ value = int32Min then none else some (value - 1)

def cSignal (value : Int) : Option Int := if value = int32Max then none else some (value + 1)

def bWait (value : Nat) : Option Nat := if value = 0 then some 1 else none

def bSignal : Nat := 0

def Copied (elementSize : Nat) : Prop :=
  elementSize = 1 ∨ elementSize = 2 ∨ elementSize = 4 ∨ elementSize = 8

instance (elementSize : Nat) : Decidable (Copied elementSize) :=
  inferInstanceAs (Decidable (_ ∨ _))

/-- `(index + 1) % size`, undefined for a size of 0. -/
def advance (index size : Nat) : Option Nat :=
  if size = 0 then none else some ((index + 1) % 2 ^ 32 % size)

def copyIn (fifo : Fifo Value) (value : Value) : Fifo Value :=
  if Copied fifo.elementSize then { fifo with data := Function.update fifo.data fifo.tail value }
  else fifo

def copyOut (fifo : Fifo Value) (old : Value) : Value :=
  if Copied fifo.elementSize then fifo.data fifo.head else old

def advanceTail (fifo : Fifo Value) : Option (Fifo Value) :=
  (advance fifo.tail fifo.size).map fun tail => { fifo with tail := tail }

def advanceHead (fifo : Fifo Value) : Option (Fifo Value) :=
  (advance fifo.head fifo.size).map fun head => { fifo with head := head }

/-- A store to or a load from the slot `index`, that is the bytes from
`data + index * element_size` on. -/
inductive Access where
  | write (index : Nat)
  | read (index : Nat)

def Access.index : Access → Nat
  | .write index => index
  | .read index => index

def storeAccess (fifo : Fifo Value) : List Access :=
  if Copied fifo.elementSize then [.write fifo.tail] else []

def loadAccess (fifo : Fifo Value) : List Access :=
  if Copied fifo.elementSize then [.read fifo.head] else []

/-- What a call returns: the FIFO, the flag of the nonblocking calls, the
caller's buffer and the accesses to `data`. -/
structure Done (Value : Type) where
  fifo : Fifo Value
  refused : Bool
  buffer : Value
  accesses : List Access

def fifoPut (fifo : Fifo Value) (value : Value) : Option (Done Value) := do
  let full ← cWait fifo.full
  let mutex ← bWait fifo.mutex
  let moved ← advanceTail (copyIn { fifo with full := full, mutex := mutex } value)
  let empty ← cSignal moved.empty
  some ⟨{ moved with mutex := bSignal, empty := empty }, false, value, storeAccess fifo⟩

def fifoPutNonblock (fifo : Fifo Value) (value : Value) : Option (Done Value) := do
  let next ← advance fifo.tail fifo.size
  if next = fifo.head then some ⟨fifo, true, value, []⟩
  else
    let moved ← advanceTail (copyIn fifo value)
    some ⟨moved, false, value, storeAccess fifo⟩

def fifoGet (fifo : Fifo Value) (buffer : Value) : Option (Done Value) := do
  let empty ← cWait fifo.empty
  let mutex ← bWait fifo.mutex
  let moved ← advanceHead { fifo with empty := empty, mutex := mutex }
  let full ← cSignal moved.full
  some ⟨{ moved with mutex := bSignal, full := full }, false, copyOut fifo buffer, loadAccess fifo⟩

def fifoGetNonblocking (fifo : Fifo Value) (buffer : Value) : Option (Done Value) :=
  if fifo.head = fifo.tail then some ⟨fifo, true, buffer, []⟩
  else do
    let moved ← advanceHead fifo
    some ⟨moved, false, copyOut fifo buffer, loadAccess fifo⟩

inductive Call (Value : Type) where
  | put (value : Value)
  | putNonblock (value : Value)
  | get (buffer : Value)
  | getNonblocking (buffer : Value)

def perform (fifo : Fifo Value) : Call Value → Option (Done Value)
  | .put value => fifoPut fifo value
  | .putNonblock value => fifoPutNonblock fifo value
  | .get buffer => fifoGet fifo buffer
  | .getNonblocking buffer => fifoGetNonblocking fifo buffer

def performAll (fifo : Fifo Value) : List (Call Value) → Option (List Access)
  | [] => some []
  | call :: rest => do
      let done ← perform fifo call
      let later ← performAll done.fifo rest
      some (done.accesses ++ later)

end MulticoreRtos.MpmcFifo
