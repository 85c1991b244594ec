import Mathlib.Algebra.GroupWithZero.Nat
import MulticoreRtos.Crc

/-!
`bootloader/pad_checksum`, which turns the second stage bootloader into 256 bytes of
assembly that end in the checksum the boot ROM tests. `binascii.crc32` is the
reflected CRC-32 and the boot ROM's the forward one.
-/

namespace MulticoreRtos.PadChecksum

open Crc

/-- The digits of `"{:0{w}b}".format(x, w=width)`. -/
def binaryText (x width : Nat) : List Bool :=
  (List.range (max width (x.log2 + 1))).reverse.map x.testBit

/-- `int(text, 2)` -/
def parseBinary (text : List Bool) : Nat := text.foldl (fun n bit => 2 * n + bit.toNat) 0

def bitrev (x width : Nat) : Nat := parseBinary (binaryText x width).reverse

/-- One byte of `binascii.crc32`. -/
def crcByte (crc : BitVec 32) (byte : BitVec 8) : BitVec 32 :=
  (shift 0xEDB88320#32)^[8] (crc ^^^ byte.setWidth 32)

def crc32 (data : List (BitVec 8)) (value : BitVec 32) : BitVec 32 :=
  ~~~(data.foldl crcByte (~~~value))

/-- `crc32` takes the low 32 bits of its second argument. -/
def checksum (idataPadded : List (BitVec 8)) (seed : Int) : Nat :=
  bitrev
    ((crc32 (idataPadded.map fun b => BitVec.ofNat 8 (bitrev b.toNat 8))
        (BitVec.ofInt 32 seed ^^^ 0xffffffff#32) ^^^ 0xffffffff#32) &&& 0xffffffff#32).toNat 32

/-- `none` is the exit on an input that is too large. -/
def padInput (idata : List (BitVec 8)) (pad : Int) : Option (List (BitVec 8)) :=
  if pad - 4 < idata.length then none
  else some (idata ++ List.replicate (pad - 4 - idata.length).toNat 0)

/-- `struct.pack("<L", value)` -/
def packLittle (value : Nat) : List (BitVec 8) :=
  [BitVec.ofNat 8 value, BitVec.ofNat 8 (value / 2 ^ 8), BitVec.ofNat 8 (value / 2 ^ 16),
    BitVec.ofNat 8 (value / 2 ^ 24)]

def outputData (idata : List (BitVec 8)) (pad seed : Int) : Option (List (BitVec 8)) :=
  (padInput idata pad).map fun idataPadded =>
    idataPadded ++ packLittle (checksum idataPadded seed)

/-! The checksum -/

theorem parseBinary_append (text : List Bool) (bit : Bool) :
    parseBinary (text ++ [bit]) = 2 * parseBinary text + bit.toNat := by
  simp [parseBinary]

theorem parseBinary_bit (text : List Bool) (i : Nat) :
    (parseBinary text.reverse).testBit i = text.getD i false := by
  induction text generalizing i with
  | nil => simp [parseBinary]
  | cons bit rest ih =>
      rw [List.reverse_cons, parseBinary_append]
      cases i with
      | zero => cases bit <;> simp
      | succ i =>
          rw [Nat.testBit_succ]
          have half : (2 * parseBinary rest.reverse + bit.toNat) / 2 = parseBinary rest.reverse := by
            cases bit with
            | false =>
                simp only [Bool.toNat_false]
                omega
            | true =>
                simp only [Bool.toNat_true]
                omega
          rw [half, ih]
          rfl

theorem binaryText_toNat {w : Nat} (x : BitVec (w + 1)) :
    binaryText x.toNat (w + 1) = (List.range (w + 1)).reverse.map x.getLsbD := by
  have digits : x.toNat.log2 + 1 ≤ w + 1 := by
    by_cases zero : x.toNat = 0
    · simp [zero]
    · exact Nat.succ_le_succ (Nat.lt_succ_iff.mp ((Nat.log2_lt zero).mpr x.isLt))
  rw [binaryText, Nat.max_eq_left digits]
  rfl

theorem bitrev_toNat {w : Nat} (x : BitVec (w + 1)) : bitrev x.toNat (w + 1) = x.reverse.toNat := by
  apply Nat.eq_of_testBit_eq
  intro i
  rw [bitrev, parseBinary_bit, binaryText_toNat, ← BitVec.getLsbD, BitVec.getLsbD_reverse]
  by_cases below : i < w + 1
  · simp [List.getD_eq_getElem?_getD, below, BitVec.getMsbD]
  · simp [List.getD_eq_getElem?_getD, BitVec.getMsbD, below]

/-- The bits of a byte in the order the boot ROM takes them. -/
def byteBits (byte : BitVec 8) : List Bool := (List.range 8).map byte.getMsbD

theorem load_byteBits (byte : BitVec 8) :
    (load (byteBits byte) : BitVec 32) = byte.reverse.setWidth 32 := by
  apply BitVec.eq_of_getLsbD_eq
  intro i below
  rw [load_bit, BitVec.getLsbD_setWidth, BitVec.getLsbD_reverse, byteBits]
  by_cases inside : i < 8
  · simp [List.getD_eq_getElem?_getD, inside]
  · simp [List.getD_eq_getElem?_getD, inside, BitVec.getMsbD]

theorem crcByte_digest (crc : BitVec 32) (byte : BitVec 8) :
    crcByte crc byte.reverse = digest 0xEDB88320#32 crc (byteBits byte) := by
  have fits : (byteBits byte).length ≤ 32 := by simp [byteBits]
  rw [digest_load fits, load_byteBits, crcByte]
  rfl

theorem foldl_digest (data : List (BitVec 8)) (crc : BitVec 32) :
    (data.map BitVec.reverse).foldl crcByte crc =
      digest 0xEDB88320#32 crc (data.flatMap byteBits) := by
  induction data generalizing crc with
  | nil => rfl
  | cons byte rest ih =>
      rw [List.map_cons, List.foldl_cons, ih, crcByte_digest, List.flatMap_cons, digest, digest,
        digest, List.foldl_append]

theorem reversed_byte (byte : BitVec 8) : BitVec.ofNat 8 (bitrev byte.toNat 8) = byte.reverse := by
  rw [bitrev_toNat, BitVec.ofNat_toNat, BitVec.setWidth_eq]

/-- The checksum is the CRC-32 of the boot ROM: the bits of each byte from the top,
nothing reversed and nothing inverted. -/
theorem checksum_forward (data : List (BitVec 8)) (seed : Int) :
    checksum data seed =
      (digestUp 0x04C11DB7#32 (BitVec.ofInt 32 seed).reverse (data.flatMap byteBits)).toNat := by
  have poly : (0xEDB88320#32 : BitVec 32) = (0x04C11DB7#32).reverse := by decide +kernel
  have ones : (0xffffffff#32 : BitVec 32) = BitVec.allOnes 32 := by decide
  -- both inversions meet their counterparts in `crc32`
  simp only [checksum, reversed_byte, crc32, ones, BitVec.xor_allOnes, BitVec.not_not,
    BitVec.and_allOnes]
  rw [bitrev_toNat]
  have mapped : (data.map fun byte => byte.reverse) = data.map BitVec.reverse := rfl
  rw [mapped, foldl_digest, ← reverse_digest, BitVec.reverse_reverse_eq, poly]

/-- The check value of the boot ROM's CRC-32, over the digits 1 to 9. -/
example : checksum (List.map (BitVec.ofNat 8) (List.range' 0x31 9)) 0xFFFFFFFF = 0x0376E6E7 := by
  decide +kernel

/-- Two images that differ within 32 bits in a row have different checksums. -/
theorem burst_changes_checksum {data data' : List (BitVec 8)} (seed : Int)
    {before first second after : List Bool}
    (bits : data.flatMap byteBits = before ++ first ++ after)
    (bits' : data'.flatMap byteBits = before ++ second ++ after)
    (same : first.length = second.length) (burst : first.length ≤ 32) (apart : first ≠ second) :
    checksum data seed ≠ checksum data' seed := by
  rw [checksum_forward, checksum_forward, bits, bits', ← reverse_digest, ← reverse_digest]
  intro equal
  have registers := BitVec.eq_of_toNat_eq equal
  have doubled := congrArg BitVec.reverse registers
  simp only [BitVec.reverse_reverse_eq] at doubled
  have constant : (0x04C11DB7#32).reverse.msb = true := by decide +kernel
  exact burst_detected constant _ before after same burst apart doubled

theorem burst_changes_checksum_bit :
    checksum [0x5A#8, 0x00#8] 0xFFFFFFFF ≠ checksum [0x5A#8, 0x18#8] 0xFFFFFFFF := by
  have bits : [0x5A#8, 0x00#8].flatMap byteBits =
      (byteBits 0x5A#8 ++ [false, false, false]) ++ [false, false] ++ [false, false, false] := by
    decide
  have bits' : [0x5A#8, 0x18#8].flatMap byteBits =
      (byteBits 0x5A#8 ++ [false, false, false]) ++ [true, true] ++ [false, false, false] := by
    decide
  exact burst_changes_checksum 0xFFFFFFFF bits bits' rfl (by decide) (by decide)

/-! The assembly -/

def hexDigits : List Char :=
  ['0', '1', '2', '3', '4', '5', '6', '7', '8', '9', 'a', 'b', 'c', 'd', 'e', 'f']

/-- `"0x{:02x}".format(b)` -/
def byteText (b : BitVec 8) : List Char :=
  ['0', 'x', hexDigits.getD (b.toNat / 16) '0', hexDigits.getD (b.toNat % 16) '0']

/-- `", ".join(...)` -/
def operands : List (BitVec 8) → List Char
  | [] => []
  | [b] => byteText b
  | b :: rest => byteText b ++ ',' :: ' ' :: operands rest

def directive : List Char := ['.', 'b', 'y', 't', 'e', ' ']

/-- `for offs in range(0, len(odata), 16)` -/
def byteLines (odata : List (BitVec 8)) : List (List Char) :=
  (List.range' 0 ((odata.length + 15) / 16) 16).map fun offs =>
    directive ++ operands ((odata.take (min (offs + 16) odata.length)).drop offs)

/-! The meaning given to the text: the assembler itself is not modelled -/

/-- The text behind `.byte`, cut at the commas. -/
def fields : List Char → List (List Char)
  | [] => [[]]
  | c :: rest =>
      match fields rest with
      | [] => [[c]]
      | field :: others => if c = ',' then [] :: field :: others else (c :: field) :: others

def readDigit (c : Char) : Option Nat := hexDigits.findIdx? (· = c)

/-- An operand stands for the low 8 bits of its hexadecimal number. -/
def readNumber (field : List Char) : Option (BitVec 8) :=
  match field.dropWhile (· = ' ') with
  | '0' :: 'x' :: digits =>
      (digits.mapM readDigit).map fun values =>
        BitVec.ofNat 8 (values.foldl (fun n digit => 16 * n + digit) 0)
  | _ => none

/-- The bytes that a `.byte` line stands for. -/
def readLine (line : List Char) : Option (List (BitVec 8)) :=
  if directive.isPrefixOf line then (fields (line.drop directive.length)).mapM readNumber else none

theorem fields_cons (text : List Char) : ∃ field others, fields text = field :: others := by
  induction text with
  | nil => exact ⟨[], [], rfl⟩
  | cons c rest ih =>
      obtain ⟨field, others, split⟩ := ih
      by_cases comma : c = ','
      · exact ⟨[], field :: others, by simp only [fields, split, if_pos comma]⟩
      · exact ⟨c :: field, others, by simp only [fields, split, if_neg comma]⟩

theorem fields_split (field text : List Char) (whole : ',' ∉ field) :
    fields (field ++ ',' :: text) = field :: fields text := by
  induction field with
  | nil =>
      obtain ⟨first, others, split⟩ := fields_cons text
      simp only [List.nil_append, fields, split, if_true]
  | cons c rest ih =>
      have plain : c ≠ ',' := fun same => whole (by simp [same])
      rw [List.cons_append, fields, ih fun member => whole (List.mem_cons_of_mem _ member)]
      simp only [if_neg plain]

theorem fields_last (field : List Char) (whole : ',' ∉ field) : fields field = [field] := by
  induction field with
  | nil => rfl
  | cons c rest ih =>
      have plain : c ≠ ',' := fun same => whole (by simp [same])
      rw [fields, ih fun member => whole (List.mem_cons_of_mem _ member)]
      simp only [if_neg plain]

theorem byteText_digits (b : BitVec 8) :
    ∃ high low, b.toNat / 16 < 16 ∧ byteText b = ['0', 'x', high, low] ∧
      readDigit high = some (b.toNat / 16) ∧ readDigit low = some (b.toNat % 16) ∧
      ',' ∉ byteText b := by
  have digit : ∀ n < 16, readDigit (hexDigits.getD n '0') = some n ∧ ',' ≠ hexDigits.getD n '0' := by
    decide
  have high : b.toNat / 16 < 16 := Nat.div_lt_of_lt_mul b.isLt
  have low := Nat.mod_lt b.toNat (show 0 < 16 by decide)
  refine ⟨_, _, high, rfl, (digit _ high).1, (digit _ low).1, ?_⟩
  simp only [byteText, List.mem_cons, List.not_mem_nil, or_false, not_or]
  exact ⟨by decide, by decide, (digit _ high).2, (digit _ low).2⟩

theorem readNumber_byteText (b : BitVec 8) :
    readNumber (byteText b) = some b ∧ readNumber (' ' :: byteText b) = some b := by
  obtain ⟨high, low, _, text, first, second, _⟩ := byteText_digits b
  have value : 16 * (b.toNat / 16) + b.toNat % 16 = b.toNat := Nat.div_add_mod _ _
  rw [text]
  constructor
  · simp [readNumber, first, second, value]
  · simp [readNumber, first, second, value]

theorem fields_blank {text field : List Char} {others : List (List Char)}
    (split : fields text = field :: others) : fields (' ' :: text) = (' ' :: field) :: others := by
  have blank : ¬ ' ' = ',' := by decide
  simp only [fields, split, if_neg blank]

theorem fields_operands (b : BitVec 8) (rest : List (BitVec 8)) :
    fields (operands (b :: rest)) = byteText b :: rest.map fun c => ' ' :: byteText c := by
  induction rest generalizing b with
  | nil =>
      obtain ⟨_, _, _, _, _, _, plain⟩ := byteText_digits b
      exact fields_last _ plain
  | cons c rest ih =>
      obtain ⟨_, _, _, _, _, _, plain⟩ := byteText_digits b
      have joined : operands (b :: c :: rest) = byteText b ++ ',' :: ' ' :: operands (c :: rest) := rfl
      rw [joined, fields_split _ _ plain, fields_blank (ih c), List.map_cons]

theorem readLine_operands (b : BitVec 8) (rest : List (BitVec 8)) :
    readLine (directive ++ operands (b :: rest)) = some (b :: rest) := by
  have numbers : (rest.map fun c => ' ' :: byteText c).mapM readNumber = some rest := by
    induction rest with
    | nil => rfl
    | cons c rest ih => simp [readNumber_byteText, ih]
  have named : directive.isPrefixOf (directive ++ operands (b :: rest)) = true :=
    List.isPrefixOf_iff_prefix.mpr (List.prefix_append _ _)
  rw [readLine, if_pos named, List.drop_left, fields_operands]
  simp [readNumber_byteText, numbers]

theorem chunk_eq (odata : List (BitVec 8)) (offs : Nat) :
    (odata.take (min (offs + 16) odata.length)).drop offs = (odata.drop offs).take 16 := by
  rw [← List.take_take, List.take_length, List.drop_take, Nat.add_sub_cancel_left]

theorem readLines (odata : List (BitVec 8)) (count offs : Nat)
    (covered : count = (odata.length - offs + 15) / 16) :
    (((List.range' offs count 16).map fun offs =>
        directive ++ operands ((odata.take (min (offs + 16) odata.length)).drop offs)).mapM
      readLine).map List.flatten = some (odata.drop offs) := by
  -- line by line, sixteen bytes at a time
  induction count generalizing offs with
  | zero =>
      have past : odata.length ≤ offs := by omega
      simp [List.drop_of_length_le past]
  | succ count ih =>
      have more := ih (offs + 16) (by omega)
      obtain ⟨lines, read, flat⟩ := Option.map_eq_some_iff.mp more
      cases first : odata.drop offs with
      | nil =>
          have past := List.drop_eq_nil_iff.mp first
          omega
      | cons b rest =>
          have line : readLine (directive ++ operands ((odata.drop offs).take 16)) =
              some ((odata.drop offs).take 16) := by
            rw [first]
            exact readLine_operands b (rest.take 15)
          rw [List.range'_succ, List.map_cons, chunk_eq]
          simp only [List.mapM_cons, line, read, Option.bind_eq_bind, Option.bind_some,
            Option.pure_def, Option.map_some, List.flatten_cons, flat]
          rw [← first, ← List.drop_drop, List.take_append_drop]

def unpackLittle (bytes : List (BitVec 8)) : Nat :=
  bytes.foldr (fun byte rest => byte.toNat + 2 ^ 8 * rest) 0

theorem unpackLittle_packLittle {value : Nat} (word : value < 2 ^ 32) :
    unpackLittle (packLittle value) = value := by
  simp only [unpackLittle, packLittle, List.foldr_cons, List.foldr_nil, BitVec.toNat_ofNat]
  omega

theorem checksum_word (data : List (BitVec 8)) (seed : Int) : checksum data seed < 2 ^ 32 := by
  rw [checksum_forward]
  exact BitVec.isLt _

/-- The `.byte` lines stand for as many bytes as asked for: the input, and zeros in
front of the checksum, which is the boot ROM's of all that is before it. -/
theorem assembly_round_trip {idata odata : List (BitVec 8)} {pad seed : Int}
    (made : outputData idata pad seed = some odata) :
    ((byteLines odata).mapM readLine).map List.flatten = some odata ∧
      (odata.length : Int) = pad ∧
      odata.take (odata.length - 4) =
        idata ++ List.replicate (odata.length - 4 - idata.length) 0 ∧
      unpackLittle (odata.drop (odata.length - 4)) =
        (digestUp 0x04C11DB7#32 (BitVec.ofInt 32 seed).reverse
          ((odata.take (odata.length - 4)).flatMap byteBits)).toNat := by
  obtain ⟨padded, fits, rfl⟩ := Option.map_eq_some_iff.mp made
  have room : ¬ pad - 4 < idata.length := by
    intro large
    rw [padInput, if_pos large] at fits
    cases fits
  rw [padInput, if_neg room, Option.some.injEq] at fits
  have length : (padded ++ packLittle (checksum padded seed)).length = padded.length + 4 :=
    List.length_append
  have padded_length : (padded.length : Int) = pad - 4 := by
    rw [← fits, List.length_append, List.length_replicate]
    omega
  refine ⟨readLines _ _ 0 rfl, ?_, ?_, ?_⟩
  · rw [length]
    omega
  · have zeros : padded.length - idata.length = (pad - 4 - idata.length).toNat := by omega
    rw [length, Nat.add_sub_cancel, List.take_left, zeros, fits]
  · rw [length, Nat.add_sub_cancel, List.drop_left, List.take_left,
      unpackLittle_packLittle (checksum_word _ _), checksum_forward]

theorem assembly_round_trip_boot2 :
    ∃ odata, outputData [0x00#8, 0xb5#8, 0x32#8] 256 0xFFFFFFFF = some odata ∧
      ((byteLines odata).mapM readLine).map List.flatten = some odata ∧ (odata.length : Int) = 256 := by
  obtain ⟨odata, made⟩ : ∃ odata, outputData [0x00#8, 0xb5#8, 0x32#8] 256 0xFFFFFFFF = some odata :=
    ⟨_, rfl⟩
  obtain ⟨read, length, _⟩ := assembly_round_trip made
  exact ⟨odata, made, read, length⟩

end MulticoreRtos.PadChecksum
