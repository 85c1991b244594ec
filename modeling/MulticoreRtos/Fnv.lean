import Mathlib.Data.BitVec
import Mathlib.Data.Nat.ModEq
import Mathlib.Tactic.Linarith

/-!
Hashes that take in one byte after the other with an exclusive or and a
multiplication. An odd factor keeps different hashes different, and a factor that
moves every difference of two bytes out of the lowest byte keeps the next byte from
making up for it.
-/

namespace MulticoreRtos.Fnv

variable {w : Nat} {prime : BitVec w}

def takeIn (prime hash : BitVec w) (item : BitVec 8) : BitVec w := (hash ^^^ item.setWidth w) * prime

/-- No multiple of the factor by a difference of two bytes is such a difference. -/
def Spreads (prime : BitVec w) : Prop :=
  ∀ first second : Int, first.natAbs < 256 → second.natAbs < 256 →
    (first * prime.toNat - second) % 2 ^ w = 0 → first = 0

theorem mul_odd {x y : BitVec w} (odd : Nat.Coprime (2 ^ w) prime.toNat) (same : x * prime = y * prime) :
    x = y := by
  have words : x.toNat * prime.toNat ≡ y.toNat * prime.toNat [MOD 2 ^ w] := by
    have values := congrArg BitVec.toNat same
    rwa [BitVec.toNat_mul, BitVec.toNat_mul] at values
  have reduced : x.toNat ≡ y.toNat [MOD 2 ^ w] := words.cancel_right_of_coprime odd
  exact BitVec.eq_of_toNat_eq (reduced.eq_of_lt_of_lt x.isLt y.isLt)

theorem takeIn_injective (odd : Nat.Coprime (2 ^ w) prime.toNat) {first second : BitVec w} {item : BitVec 8}
    (same : takeIn prime first item = takeIn prime second item) : first = second :=
  (BitVec.xor_left_inj _).mp (mul_odd odd same)

/-- What follows cannot make two hashes equal. -/
theorem foldl_injective (odd : Nat.Coprime (2 ^ w) prime.toNat) (late : List (BitVec 8))
    {first second : BitVec w} (same : late.foldl (takeIn prime) first = late.foldl (takeIn prime) second) :
    first = second := by
  induction late generalizing first second with
  | nil => exact same
  | cons item late ih => exact takeIn_injective odd (ih same)

theorem xor_high (hash : BitVec w) (item : BitVec 8) :
    (hash ^^^ item.setWidth w).toNat / 256 = hash.toNat / 256 := by
  have small : item.toNat % 2 ^ w / 2 ^ 8 = 0 := by
    have least := Nat.mod_le item.toNat (2 ^ w)
    exact Nat.div_eq_of_lt (by omega)
  rw [BitVec.toNat_xor, BitVec.toNat_setWidth, show 256 = 2 ^ 8 from rfl, Nat.xor_div_two_pow, small,
    Nat.xor_zero]

theorem byte_injective (wide : 8 ≤ w) {a c : BitVec 8} (same : a.setWidth w = c.setWidth w) : a = c := by
  have back := congrArg (BitVec.setWidth 8) same
  rwa [BitVec.setWidth_setWidth_of_le _ wide, BitVec.setWidth_setWidth_of_le _ wide,
    BitVec.setWidth_eq, BitVec.setWidth_eq] at back

/-- Reduced, two numbers differ by as much as before, up to a multiple. -/
theorem residues (first second modulus : Nat) :
    ((first : Int) - second - ((first % modulus : Nat) - (second % modulus : Nat))) % modulus = 0 := by
  have whole : (first : Int) - second - ((first % modulus : Nat) - (second % modulus : Nat)) =
      modulus * ((first / modulus : Nat) - (second / modulus : Nat)) := by
    have one := congrArg (Nat.cast (R := Int)) (Nat.div_add_mod first modulus)
    have two := congrArg (Nat.cast (R := Int)) (Nat.div_add_mod second modulus)
    rw [Nat.cast_add, Nat.cast_mul] at one two
    rw [mul_sub]
    linarith
  rw [whole, Int.mul_emod_right]

theorem takeIn_neighbours (wide : 8 ≤ w) (odd : Nat.Coprime (2 ^ w) prime.toNat) (spreads : Spreads prime)
    {hash : BitVec w} {a b c d : BitVec 8}
    (same : takeIn prime (takeIn prime hash a) b = takeIn prime (takeIn prime hash c) d) :
    a = c ∧ b = d := by
  have mixed := mul_odd odd same
  -- the second bytes change the lowest byte of the products only, the first ones that of the hash
  have near : (takeIn prime hash a).toNat / 256 = (takeIn prime hash c).toNat / 256 := by
    rw [← xor_high _ b, mixed, xor_high]
  have close : (hash ^^^ a.setWidth w).toNat / 256 = (hash ^^^ c.setWidth w).toNat / 256 := by
    rw [xor_high, xor_high]
  have multiple : (((hash ^^^ a.setWidth w).toNat - (hash ^^^ c.setWidth w).toNat : Int) * prime.toNat -
      ((takeIn prime hash a).toNat - (takeIn prime hash c).toNat)) % 2 ^ w = 0 := by
    have reduced := residues ((hash ^^^ a.setWidth w).toNat * prime.toNat)
      ((hash ^^^ c.setWidth w).toNat * prime.toNat) (2 ^ w)
    rwa [Nat.cast_mul, Nat.cast_mul, ← sub_mul, ← BitVec.toNat_mul, ← BitVec.toNat_mul, Nat.cast_pow]
      at reduced
  -- so the hashes with the first bytes differ by 0
  have zero := spreads _ _ (by omega) (by omega) multiple
  have first : hash ^^^ a.setWidth w = hash ^^^ c.setWidth w := BitVec.eq_of_toNat_eq (by omega)
  have pair : a = c := byte_injective wide ((BitVec.xor_right_inj _).mp first)
  rw [pair] at mixed
  exact ⟨pair, byte_injective wide ((BitVec.xor_right_inj _).mp mixed)⟩

theorem neighbours_apart (wide : 8 ≤ w) (odd : Nat.Coprime (2 ^ w) prime.toNat) (spreads : Spreads prime)
    (basis : BitVec w) (early late : List (BitVec 8)) (a b c d : BitVec 8) :
    (early ++ a :: b :: late).foldl (takeIn prime) basis = (early ++ c :: d :: late).foldl (takeIn prime) basis ↔
      a = c ∧ b = d := by
  constructor
  · intro same
    rw [List.foldl_append, List.foldl_append] at same
    exact takeIn_neighbours wide odd spreads (foldl_injective odd late same)
  · rintro ⟨rfl, rfl⟩
    rfl

end MulticoreRtos.Fnv
