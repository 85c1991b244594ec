import Mathlib.Logic.Function.Basic
import Mathlib.Tactic.Ring

/-!
The part of the ARMv6-M instruction set that handlers for a context switch use,
and what the processor does of its own on the way into and out of an exception.
Memory is read and written in words at their byte addresses. A register holds a
number below 2^32, and no stack comes near address 0. The flags are left out: the
return from the exception loads them.
-/

namespace MulticoreRtos.Thumb

inductive Reg where
  | r0 | r1 | r2 | r3 | r4 | r5 | r6 | r7 | r8 | r9 | r10 | r11 | r12 | sp | lr | pc
  deriving DecidableEq

abbrev Memory := Nat → Nat

@[ext] structure Context where
  reg : Reg → Nat
  xpsr : Nat

/-- Bits 0 and 1 of SP and bit 9 of xPSR read as zero. -/
structure Context.WellFormed (c : Context) : Prop where
  aligned : c.reg .sp % 4 = 0
  reserved : c.xpsr / 2 ^ 9 % 2 = 0

structure State where
  context : Context
  mem : Memory
  primask : Bool

inductive Instr where
  | cpsid
  | cpsie
  | ldrLit (rd : Reg) (value : Nat)
  | ldr (rt rn : Reg)
  | str (rt rn : Reg)
  | lsl (rd rm : Reg) (amount : Nat)
  | add (rd rn rm : Reg)
  | mov (rd rm : Reg)
  | push (regs : List Reg)
  | pop (regs : List Reg)
  | bx (rm : Reg)

def State.set (s : State) (r : Reg) (value : Nat) : State :=
  { s with context := { s.context with reg := Function.update s.context.reg r value } }

def storeWords (mem : Memory) : Nat → List Nat → Memory
  | _, [] => mem
  | addr, w :: rest => storeWords (Function.update mem addr w) (addr + 4) rest

def loadRegs (mem : Memory) : Nat → List Reg → (Reg → Nat) → Reg → Nat
  | _, [], reg => reg
  | addr, r :: rest, reg => loadRegs mem (addr + 4) rest (Function.update reg r (mem addr))

/-! Exceptions -/

/-- EXC_RETURN for a thread on the main stack. -/
def excReturn : Nat := 0xFFFFFFF9

def withBit9 (xpsr bit : Nat) : Nat := xpsr - xpsr / 2 ^ 9 % 2 * 2 ^ 9 + bit * 2 ^ 9

/-- Where the hardware puts its frame: SP - 0x20 with bit 2 cleared. -/
def framePtr (sp : Nat) : Nat := sp - 32 - (sp - 32) / 4 % 2 * 4

/-- The frame; bit 9 of the stacked xPSR keeps bit 2 of SP. -/
def hardwareFrame (c : Context) : List Nat :=
  [c.reg .r0, c.reg .r1, c.reg .r2, c.reg .r3, c.reg .r12, c.reg .lr, c.reg .pc,
    withBit9 c.xpsr (c.reg .sp / 4 % 2)]

def exceptionEntry (s : State) : State :=
  let frame := framePtr (s.context.reg .sp)
  ({ s with mem := storeWords s.mem frame (hardwareFrame s.context) }.set .sp frame).set .lr excReturn

def exceptionReturn (s : State) : State :=
  let frame := s.context.reg .sp
  let reg := loadRegs s.mem frame [.r0, .r1, .r2, .r3, .r12, .lr, .pc] s.context.reg
  let psr := s.mem (frame + 28)
  { s with
    context :=
      { reg := Function.update reg .sp ((frame + 32) ||| (psr / 2 ^ 9 % 2 * 4))
        xpsr := withBit9 psr 0 } }

/-! Instructions -/

/-- A word read; `device` answers for the addresses that are not memory. -/
def readWord (device : Nat → Option Nat) (mem : Memory) (addr : Nat) : Nat :=
  (device addr).getD (mem addr)

def exec (device : Nat → Option Nat) (s : State) : Instr → State
  | .cpsid => { s with primask := true }
  | .cpsie => { s with primask := false }
  | .ldrLit rd value => s.set rd value
  | .ldr rt rn => s.set rt (readWord device s.mem (s.context.reg rn))
  | .str rt rn =>
      { s with mem := Function.update s.mem (s.context.reg rn) (s.context.reg rt) }
  | .lsl rd rm amount => s.set rd (s.context.reg rm * 2 ^ amount % 2 ^ 32)
  | .add rd rn rm => s.set rd ((s.context.reg rn + s.context.reg rm) % 2 ^ 32)
  | .mov rd rm => s.set rd (s.context.reg rm)
  | .push regs =>
      let base := s.context.reg .sp - 4 * regs.length
      { s with mem := storeWords s.mem base (regs.map s.context.reg) }.set .sp base
  | .pop regs =>
      let base := s.context.reg .sp
      { s with context := { s.context with reg := loadRegs s.mem base regs s.context.reg } }.set .sp
        (base + 4 * regs.length)
  | .bx rm =>
      if s.context.reg rm = excReturn then exceptionReturn s else s.set .pc (s.context.reg rm)

def run (device : Nat → Option Nat) (program : List Instr) (s : State) : State :=
  program.foldl (exec device) s

theorem run_append (device : Nat → Option Nat) (first second : List Instr) (s : State) :
    run device (first ++ second) s = run device second (run device first s) :=
  List.foldl_append

/-! Words in memory -/

theorem storeWords_outside (words : List Nat) (mem : Memory) {addr a : Nat}
    (outside : a < addr ∨ addr + 4 * words.length ≤ a) : storeWords mem addr words a = mem a := by
  induction words generalizing mem addr with
  | nil => rfl
  | cons w rest ih =>
      rw [List.length_cons] at outside
      rw [storeWords, ih _ (by omega), Function.update_of_ne (by omega)]

theorem storeWords_get (words : List Nat) (mem : Memory) (addr : Nat) {i : Nat}
    (inside : i < words.length) : storeWords mem addr words (addr + 4 * i) = words[i] := by
  induction words generalizing mem addr i with
  | nil => exact absurd inside (Nat.not_lt_zero i)
  | cons w rest ih =>
      rw [storeWords]
      cases i with
      | zero =>
          rw [Nat.mul_zero, storeWords_outside rest _ (by omega)]
          exact Function.update_self addr w mem
      | succ i =>
          rw [show addr + 4 * (i + 1) = addr + 4 + 4 * i by ring]
          exact ih _ _ (Nat.lt_of_succ_lt_succ inside)

theorem storeWords_append (first second : List Nat) (mem : Memory) (addr : Nat) :
    storeWords mem addr (first ++ second) =
      storeWords (storeWords mem addr first) (addr + 4 * first.length) second := by
  induction first generalizing mem addr with
  | nil => rfl
  | cons w rest ih =>
      rw [List.cons_append, storeWords, ih, storeWords, List.length_cons,
        show addr + 4 * (rest.length + 1) = addr + 4 + 4 * rest.length by ring]

theorem storeWords_update (words : List Nat) (mem : Memory) {addr a : Nat} (value : Nat)
    (outside : a < addr ∨ addr + 4 * words.length ≤ a) :
    storeWords (Function.update mem a value) addr words =
      Function.update (storeWords mem addr words) a value := by
  induction words generalizing mem addr with
  | nil => rfl
  | cons w rest ih =>
      rw [List.length_cons] at outside
      rw [storeWords, storeWords, Function.update_comm (by omega), ih _ (by omega)]

/-- The order of two stores that do not meet does not matter. -/
theorem storeWords_comm (first second : List Nat) (mem : Memory) {a b : Nat}
    (apart : b + 4 * second.length ≤ a) :
    storeWords (storeWords mem a first) b second = storeWords (storeWords mem b second) a first := by
  induction first generalizing mem a with
  | nil => rfl
  | cons w rest ih =>
      rw [storeWords, ih _ (by omega), storeWords_update second _ _ (Or.inr apart), storeWords]

end MulticoreRtos.Thumb
