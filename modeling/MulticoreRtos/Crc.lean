import Mathlib.Logic.Function.Iterate
import Mathlib.Data.List.GetD

/-!
Cyclic redundancy checks over registers of any width. The reflected register takes
its bits at index 0 and shifts down, the forward one takes them at the top and
shifts up: each is the other in reverse. When the polynomial has a constant term no
two messages of one length that differ within a burst no longer than the register
have the same check.
-/

namespace MulticoreRtos.Crc

variable {w : Nat}

/-- One shift of a reflected register. -/
def shift (poly reg : BitVec w) : BitVec w := (reg >>> 1) ^^^ (if reg.getLsbD 0 then poly else 0#w)

def shiftUp (poly reg : BitVec w) : BitVec w := (reg <<< 1) ^^^ (if reg.msb then poly else 0#w)

def bottom (bit : Bool) : BitVec w := (BitVec.ofBool bit).setWidth w

def feed (poly reg : BitVec w) (bit : Bool) : BitVec w := shift poly (reg ^^^ bottom bit)

def feedUp (poly reg : BitVec w) (bit : Bool) : BitVec w := shiftUp poly (reg ^^^ (bottom bit).reverse)

def digest (poly reg : BitVec w) (bits : List Bool) : BitVec w := bits.foldl (feed poly) reg

def digestUp (poly reg : BitVec w) (bits : List Bool) : BitVec w := bits.foldl (feedUp poly) reg

/-! The two directions -/

theorem reverse_xor (x y : BitVec w) : (x ^^^ y).reverse = x.reverse ^^^ y.reverse := by
  apply BitVec.eq_of_getLsbD_eq
  intro i below
  simp only [BitVec.getLsbD_reverse, BitVec.getLsbD_xor, BitVec.getMsbD_xor]

theorem reverse_shift_one (x : BitVec w) : (x >>> 1).reverse = x.reverse <<< 1 := by
  apply BitVec.eq_of_getLsbD_eq
  intro i below
  rw [BitVec.getLsbD_reverse, BitVec.getMsbD_ushiftRight, BitVec.getLsbD_shiftLeft,
    BitVec.getLsbD_reverse]
  by_cases first : i < 1
  · simp [first]
  · simp [first, below]

theorem reverse_shift (poly reg : BitVec w) :
    (shift poly.reverse reg.reverse).reverse = shiftUp poly reg := by
  rw [shift, shiftUp, reverse_xor, reverse_shift_one, BitVec.reverse_reverse_eq,
    BitVec.getLsbD_reverse, BitVec.msb]
  by_cases top : reg.getMsbD 0
  · rw [if_pos top, if_pos top, BitVec.reverse_reverse_eq]
  · rw [if_neg top, if_neg top, BitVec.reverse_eq_zero_iff.mpr rfl]

theorem reverse_feed (poly reg : BitVec w) (bit : Bool) :
    (feed poly.reverse reg.reverse bit).reverse = feedUp poly reg bit := by
  have fed : reg.reverse ^^^ bottom bit = (reg ^^^ (bottom bit).reverse).reverse := by
    rw [reverse_xor, BitVec.reverse_reverse_eq]
  rw [feed, fed, reverse_shift, feedUp]

theorem reverse_digest (poly reg : BitVec w) (bits : List Bool) :
    (digest poly.reverse reg.reverse bits).reverse = digestUp poly reg bits := by
  induction bits generalizing reg with
  | nil => exact BitVec.reverse_reverse_eq
  | cons bit rest ih =>
      have fed : feed poly.reverse reg.reverse bit = (feedUp poly reg bit).reverse := by
        rw [← reverse_feed, BitVec.reverse_reverse_eq]
      calc (digest poly.reverse (feed poly.reverse reg.reverse bit) rest).reverse
          = (digest poly.reverse (feedUp poly reg bit).reverse rest).reverse := by rw [fed]
        _ = digestUp poly (feedUp poly reg bit) rest := ih _

/-! A register that is loaded at once -/

theorem shift_xor (poly x y : BitVec w) : shift poly (x ^^^ y) = shift poly x ^^^ shift poly y := by
  apply BitVec.eq_of_getLsbD_eq
  intro i below
  simp only [shift, BitVec.getLsbD_xor, BitVec.getLsbD_ushiftRight]
  generalize x.getLsbD (1 + i) = a
  generalize y.getLsbD (1 + i) = b
  cases x.getLsbD 0 <;> cases y.getLsbD 0 <;>
    cases poly.getLsbD i <;> cases a <;> cases b <;> simp [*]

/-- The first bits of a message, the next one to leave at index 0. -/
def load : List Bool → BitVec w
  | [] => 0#w
  | bit :: rest => bottom bit ^^^ (load rest <<< 1)

theorem bottom_bit (bit : Bool) (i : Nat) :
    (bottom bit : BitVec w).getLsbD i = (decide (i < w) && decide (i = 0) && bit) := by
  simp [bottom, BitVec.getLsbD_setWidth, BitVec.getLsbD_ofBool, Bool.and_assoc]

theorem load_bit (bits : List Bool) (i : Nat) :
    (load bits : BitVec w).getLsbD i = (decide (i < w) && bits.getD i false) := by
  induction bits generalizing i with
  | nil => simp [load]
  | cons bit rest ih =>
      cases i with
      | zero => simp [load, bottom_bit]
      | succ i =>
          simp only [load, BitVec.getLsbD_xor, bottom_bit, BitVec.getLsbD_shiftLeft, ih]
          by_cases below : i + 1 < w
          · simp [below, Nat.lt_of_succ_lt below]
          · simp [below]

theorem shift_load {bits : List Bool} (room : bits.length < w) (poly : BitVec w) :
    shift poly (load bits <<< 1) = load bits := by
  apply BitVec.eq_of_getLsbD_eq
  intro i below
  have low : (load bits <<< 1 : BitVec w).getLsbD 0 = false := by simp
  rw [shift, low]
  simp only [Bool.false_eq_true, if_false, BitVec.xor_zero, BitVec.getLsbD_ushiftRight,
    BitVec.getLsbD_shiftLeft, load_bit]
  by_cases last : 1 + i < w
  · simp [last, below]
  · -- what comes in at the top is behind the message
    have beyond : bits.length ≤ i := by omega
    have absent : bits[i]? = none := List.getElem?_eq_none beyond
    simp [last, absent]

/-- As many shifts as there are bits take the loaded register to the check. -/
theorem digest_load {bits : List Bool} (fits : bits.length ≤ w) (poly reg : BitVec w) :
    digest poly reg bits = (shift poly)^[bits.length] (reg ^^^ load bits) := by
  induction bits generalizing reg with
  | nil => simp [digest, load]
  | cons bit rest ih =>
      have room : rest.length < w := fits
      have fed : feed poly reg bit ^^^ load rest = shift poly (reg ^^^ load (bit :: rest)) := by
        rw [load, ← BitVec.xor_assoc, shift_xor, shift_load room, feed]
      calc digest poly (feed poly reg bit) rest
          = (shift poly)^[rest.length] (feed poly reg bit ^^^ load rest) := ih (Nat.le_of_lt room) _
        _ = (shift poly)^[rest.length] (shift poly (reg ^^^ load (bit :: rest))) := by rw [fed]
        _ = (shift poly)^[(bit :: rest).length] (reg ^^^ load (bit :: rest)) := rfl

theorem load_injective {first second : List Bool} (same : first.length = second.length)
    (fits : first.length ≤ w) (equal : (load first : BitVec w) = load second) : first = second := by
  apply List.ext_getElem same
  intro i here there
  have bits := congrArg (·.getLsbD i) equal
  simp only [load_bit, Nat.lt_of_lt_of_le here fits, decide_true, Bool.true_and] at bits
  rwa [List.getD_eq_getElem _ _ here, List.getD_eq_getElem _ _ there] at bits

/-! Bursts -/

theorem shift_injective {poly : BitVec w} (constant : poly.msb = true) :
    Function.Injective (shift poly) := by
  have kernel : ∀ reg, shift poly reg = 0#w → reg = 0#w := by
    intro reg gone
    have wide : 0 < w := BitVec.lt_of_getMsbD constant
    -- a shift leaves the top bit clear, so a set one comes from the polynomial
    have low : reg.getLsbD 0 = false := by
      have top := congrArg (·.getLsbD (w - 1)) gone
      have poly_top : poly.getLsbD (w - 1) = true := by
        rwa [BitVec.msb_eq_getLsbD_last] at constant
      have outside : reg.getLsbD (1 + (w - 1)) = false := BitVec.getLsbD_of_ge _ _ (by omega)
      cases bit : reg.getLsbD 0 with
      | false => rfl
      | true => simp [shift, bit, poly_top, outside] at top
    apply BitVec.eq_of_getLsbD_eq
    intro i below
    cases i with
    | zero => simpa using low
    | succ i =>
        have moved := congrArg (·.getLsbD i) gone
        simpa [shift, low, Nat.add_comm] using moved
  intro x y equal
  apply BitVec.xor_eq_zero_iff.mp
  apply kernel
  rw [shift_xor, equal, BitVec.xor_self]

theorem digest_injective {poly : BitVec w} (constant : poly.msb = true) (bits : List Bool) :
    Function.Injective fun reg => digest poly reg bits := by
  induction bits with
  | nil => exact fun _ _ equal => equal
  | cons bit rest ih =>
      intro x y equal
      have fed : feed poly x bit = feed poly y bit := ih equal
      exact (BitVec.xor_left_inj _).mp (shift_injective constant fed)

/-- A burst no longer than the register changes the check. -/
theorem burst_detected {poly : BitVec w} (constant : poly.msb = true) (reg : BitVec w)
    (before after : List Bool) {first second : List Bool} (same : first.length = second.length)
    (fits : first.length ≤ w) (apart : first ≠ second) :
    digest poly reg (before ++ first ++ after) ≠ digest poly reg (before ++ second ++ after) := by
  intro equal
  simp only [digest, List.foldl_append] at equal
  -- what follows the burst is undone, and what is in front of it is the same
  have middle := digest_injective constant after equal
  change digest poly (digest poly reg before) first = digest poly (digest poly reg before) second
    at middle
  have fits' : second.length ≤ w := by rwa [← same]
  rw [digest_load fits, digest_load fits', same] at middle
  have loaded := (shift_injective constant).iterate _ middle
  exact apart (load_injective same fits ((BitVec.xor_right_inj _).mp loaded))

end MulticoreRtos.Crc
