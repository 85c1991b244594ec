import MulticoreRtos.CommandArguments

/-!
Numbers as the interpreter prints and reads them. `%d` prints a number as digits
behind at most a sign; read back, the same number comes out.
-/

namespace MulticoreRtos.Interpreter

open UartTransmit (Byte)
open CString

def byteOf (c : Char) : Byte := BitVec.ofNat 8 c.toNat

def digitsText (n : Nat) : List Byte := (Nat.toDigits 10 n).map byteOf

def unsigned (text : List Byte) : List Byte :=
  if text.head? = some 0x2B ∨ text.head? = some 0x2D then text.tail else text

def readInt (text : List Byte) : Option Int :=
  let body := text.dropWhile white
  let digits := (unsigned body).takeWhile digit
  if digits = [] then none
  -- a number that is not an `int` becomes the nearest one
  else if body.head? = some 0x2D then some (max (-number digits) (-2 ^ 31))
  else some (min (number digits) (2 ^ 31 - 1))

/-! Texts of characters. -/

theorem ascii_append (first second : String) : ascii (first ++ second) = ascii first ++ ascii second := by
  simp [ascii]

theorem ascii_nat (n : Nat) : ascii (toString n) = digitsText n := by
  simp [ascii, digitsText, byteOf]

theorem ascii_int (i : Int) :
    ascii (toString i) = if i < 0 then 0x2D :: digitsText i.natAbs else digitsText i.natAbs := by
  cases i with
  | ofNat n =>
      have least : ¬ Int.ofNat n < 0 := Int.not_lt.mpr (Int.natCast_nonneg n)
      rw [if_neg least]
      exact ascii_nat n
  | negSucc n =>
      have sign : toString (Int.negSucc n) = "-" ++ toString (n + 1) := by
        simp [Int.toString_eq_repr, Int.repr]
      rw [if_pos (Int.negSucc_lt_zero n), sign, ascii_append, ascii_nat]
      rfl

/-! Digits. -/

theorem byteOf_toNat {c : Char} (digit : c.isDigit) :
    (byteOf c).toNat = c.toNat ∧ 0x30 ≤ c.toNat ∧ c.toNat ≤ 0x39 := by
  have range : 48 ≤ c.toNat ∧ c.toNat ≤ 57 := by
    simp only [Char.isDigit, Bool.and_eq_true, decide_eq_true_eq, ge_iff_le, UInt32.le_iff_toNat_le]
      at digit
    exact digit
  refine ⟨?_, range⟩
  rw [byteOf, BitVec.toNat_ofNat]
  omega

theorem digit_byteOf {c : Char} (is_digit : c.isDigit) : digit (byteOf c) = true := by
  obtain ⟨same, low, high⟩ := byteOf_toNat is_digit
  simp only [digit, BitVec.le_def, same, Bool.and_eq_true, decide_eq_true_eq]
  exact ⟨low, high⟩

theorem digits_digit (n : Nat) : ∀ item ∈ digitsText n, digit item = true := by
  intro item member
  obtain ⟨c, listed, rfl⟩ := List.mem_map.mp member
  exact digit_byteOf (Nat.isDigit_of_mem_toDigits (by decide) (by decide) listed)

theorem digits_ne_nil (n : Nat) : digitsText n ≠ [] := by
  simp [digitsText, Nat.toDigits_ne_nil]

theorem number_chars (cs : List Char) (digits : ∀ c ∈ cs, c.isDigit) (value : Nat) :
    (cs.map byteOf).foldl (fun value item => 10 * value + (item.toNat - 0x30)) value =
      Nat.ofDigitChars 10 cs value := by
  induction cs generalizing value with
  | nil => rfl
  | cons c cs ih =>
      rw [List.map_cons, List.foldl_cons, Nat.ofDigitChars_cons, (byteOf_toNat (digits c (.head _))).1]
      exact ih (fun d member => digits d (.tail _ member)) _

theorem number_digits (n : Nat) : number (digitsText n) = n := by
  have digits : ∀ c ∈ Nat.toDigits 10 n, c.isDigit := fun c listed =>
    Nat.isDigit_of_mem_toDigits (by decide) (by decide) listed
  rw [number, digitsText, number_chars _ digits, Nat.ofDigitChars_ten_toDigits]

theorem digit_plain {item : Byte} (is_digit : digit item = true) :
    white item = false ∧ item ≠ 0x2B ∧ item ≠ 0x2D ∧ item ≠ 0 := by
  simp only [digit, BitVec.le_def, Bool.and_eq_true, decide_eq_true_eq, BitVec.reduceToNat] at is_digit
  simp only [white, BitVec.le_def, ne_eq, BitVec.toNat_eq, BitVec.reduceToNat, Bool.or_eq_false_iff,
    decide_eq_false_iff_not, Bool.and_eq_false_iff]
  omega

/-! What `%d` prints. -/

theorem decimal_digits {item : Byte} {word : Nat} (member : item ∈ decimal word) :
    item = 0x2D ∨ digit item = true := by
  rw [decimal, ascii_int] at member
  split at member
  · rcases List.mem_cons.mp member with sign | listed
    · exact Or.inl sign
    · exact Or.inr (digits_digit _ item listed)
  · exact Or.inr (digits_digit _ item member)

theorem digits_length {n : Nat} (small : n < 10 ^ 10) : (digitsText n).length ≤ 10 := by
  rw [digitsText, List.length_map]
  exact (Nat.length_toDigits_le_iff (by decide) (by decide)).mpr small

theorem decimal_length (word : Nat) : (decimal word).length ≤ 11 := by
  have low := (BitVec.ofNat 32 word).le_toInt
  have high := (BitVec.ofNat 32 word).toInt_lt
  have short := digits_length (show (BitVec.ofNat 32 word).toInt.natAbs < 10 ^ 10 by omega)
  rw [decimal, ascii_int]
  split
  · rw [List.length_cons]
    omega
  · omega

/-! What `%d` reads. -/

section Reads
variable {memory : Nat → Byte} {start limit : Nat} {text : List Byte}

theorem head_string (string : IsString memory start text) (item : Byte) (used : item ≠ 0) :
    memory start = item ↔ text.head? = some item := by
  cases text with
  | nil =>
      have ends : memory start = 0 := string.ends
      rw [ends]
      exact iff_of_false used.symm (by simp)
  | cons first rest =>
      rw [string.stands.head, List.head?_cons, Option.some.injEq]

theorem sign_skipped (string : IsString memory start text) :
    IsString memory (skipSign memory start) (unsigned text) ∧
      skipSign memory start + (unsigned text).length = start + text.length := by
  have sign : memory start = 0x2B ∨ memory start = 0x2D ↔
      text.head? = some 0x2B ∨ text.head? = some 0x2D :=
    or_congr (head_string string 0x2B (by decide)) (head_string string 0x2D (by decide))
  rw [skipSign, unsigned]
  by_cases signed : memory start = 0x2B ∨ memory start = 0x2D
  · rw [if_pos signed, if_pos (sign.mp signed)]
    cases text with
    | nil => exact absurd (sign.mp signed) (by simp)
    | cons item items =>
        rw [← List.singleton_append] at string
        refine ⟨string.rest, ?_⟩
        rw [List.tail_cons, List.length_cons]
        omega
  · rw [if_neg signed, if_neg (mt sign.mpr signed)]
    exact ⟨string, rfl⟩

theorem scanInt_eq (string : IsString memory start text) (inside : start + text.length < limit) :
    scanInt memory limit start = some (readInt text) := by
  obtain ⟨first, tail⟩ := string.scan_while (fun item => !white item) (by decide) inside
  simp only [Bool.not_not] at first tail
  have size := length_parts (fun item => white item) text
  have negative := head_string tail 0x2D (by decide)
  obtain ⟨digits, same⟩ := sign_skipped tail
  obtain ⟨last, _⟩ := digits.scan_while (fun item => !digit item) (by decide)
    (show _ < limit by omega)
  simp only [Bool.not_not] at last
  have read : Stands memory (skipSign memory (start + (text.takeWhile white).length))
      ((unsigned (text.dropWhile white)).takeWhile digit) := by
    have stands := digits.stands
    rw [← (unsigned (text.dropWhile white)).takeWhile_append_dropWhile (p := digit)] at stands
    exact stands.front
  rw [scanInt, first, Option.bind_eq_bind, Option.bind_some]
  simp only [last, Option.bind_some, read.span, negative, readInt]
  simp only [Nat.add_eq_left, List.length_eq_zero_iff]

end Reads

theorem digits_taken (n : Nat) : (digitsText n).takeWhile digit = digitsText n :=
  List.takeWhile_eq_self_iff.mpr (digits_digit n)

theorem digits_first (n : Nat) :
    (digitsText n).dropWhile white = digitsText n ∧ (digitsText n).head? ≠ some 0x2B ∧
      (digitsText n).head? ≠ some 0x2D := by
  cases same : digitsText n with
  | nil => exact absurd same (digits_ne_nil n)
  | cons item items =>
      have listed : item ∈ digitsText n := by
        rw [same]
        exact .head _
      obtain ⟨visible, plus, minus, _⟩ := digit_plain (digits_digit n item listed)
      refine ⟨List.dropWhile_cons_of_neg (by rw [visible]; decide), ?_, ?_⟩
      · rw [List.head?_cons]
        exact fun sign => plus (Option.some.inj sign)
      · rw [List.head?_cons]
        exact fun sign => minus (Option.some.inj sign)

/-- `%d` reads back what `%d` prints. -/
theorem readInt_ascii (i : Int) (low : -2 ^ 31 ≤ i) (high : i < 2 ^ 31) :
    readInt (ascii (toString i)) = some i := by
  obtain ⟨shown, plus, minus⟩ := digits_first i.natAbs
  rw [ascii_int]
  split
  next negative =>
    have shown : (0x2D :: digitsText i.natAbs).dropWhile white = 0x2D :: digitsText i.natAbs :=
      List.dropWhile_cons_of_neg (by decide)
    have body : unsigned (0x2D :: digitsText i.natAbs) = digitsText i.natAbs :=
      if_pos (Or.inr List.head?_cons)
    simp only [readInt, shown, body, digits_taken, digits_ne_nil, number_digits, if_false,
      List.head?_cons, if_true]
    rw [Option.some.injEq]
    omega
  next positive =>
    have body : unsigned (digitsText i.natAbs) = digitsText i.natAbs := if_neg (not_or.mpr ⟨plus, minus⟩)
    simp only [readInt, shown, body, digits_taken, digits_ne_nil, number_digits, if_false, minus]
    rw [Option.some.injEq]
    omega

end MulticoreRtos.Interpreter
