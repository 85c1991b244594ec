import Mathlib.Data.List.TakeWhile
import Mathlib.Data.Nat.Find
import Mathlib.Logic.Function.Basic

/-!
Strings that end in a NUL, in an array of a known length. A scan stops at the
first element that it is looking for; one that comes to the end of the array
answers `none`. `strlen`, `strtok` and the conversions of `sscanf` are scans.
-/

namespace MulticoreRtos.CString

variable {α : Type}

def scan (stop : α → Bool) (memory : Nat → α) : Nat → Nat → Option Nat
  | 0, _ => none
  | fuel + 1, start =>
      if stop (memory start) then some start else scan stop memory fuel (start + 1)

def scanTo (stop : α → Bool) (memory : Nat → α) (limit start : Nat) : Option Nat :=
  scan stop memory (limit - start) start

def span (memory : Nat → α) (first last : Nat) : List α :=
  (List.range' first (last - first)).map memory

def Stands (memory : Nat → α) (start : Nat) (text : List α) : Prop :=
  ∀ index (inside : index < text.length), memory (start + index) = text[index]

theorem length_parts (passed : α → Bool) (text : List α) :
    (text.takeWhile passed).length + (text.dropWhile passed).length = text.length := by
  rw [← List.length_append, List.takeWhile_append_dropWhile]

section Scan
variable {stop : α → Bool} {memory : Nat → α} {limit start place : Nat} {text early late : List α}

theorem scan_spec (fuel : Nat) :
    scan stop memory fuel start = some place ↔
      start ≤ place ∧ place < start + fuel ∧ stop (memory place) ∧
        ∀ index, start ≤ index → index < place → ¬ stop (memory index) := by
  induction fuel generalizing start with
  | zero =>
      simp only [scan, reduceCtorEq, false_iff]
      omega
  | succ fuel ih =>
      rw [scan]
      by_cases here : stop (memory start) = true
      · rw [if_pos here, Option.some.injEq]
        constructor
        · rintro rfl
          exact ⟨Nat.le_refl _, by omega, here, fun index low high => by omega⟩
        · rintro ⟨low, _, _, earlier⟩
          by_contra other
          exact earlier start (Nat.le_refl _) (by omega) here
      · rw [if_neg here, ih]
        constructor
        · rintro ⟨low, high, found, earlier⟩
          refine ⟨by omega, by omega, found, fun index above below => ?_⟩
          by_cases first : index = start
          · rw [first]
            exact here
          · exact earlier index (by omega) below
        · rintro ⟨low, high, found, earlier⟩
          have moved : start ≠ place := by
            rintro rfl
            exact here found
          exact ⟨by omega, by omega, found, fun index above => earlier index (by omega)⟩

theorem scanTo_spec :
    scanTo stop memory limit start = some place ↔
      start ≤ place ∧ place < limit ∧ stop (memory place) ∧
        ∀ index, start ≤ index → index < place → ¬ stop (memory index) := by
  rw [scanTo, scan_spec]
  constructor
  · rintro ⟨low, high, found⟩
    exact ⟨low, by omega, found⟩
  · rintro ⟨low, high, found⟩
    exact ⟨low, by omega, found⟩

theorem scanTo_outside (outside : limit ≤ start) : scanTo stop memory limit start = none := by
  rw [scanTo, Nat.sub_eq_zero_of_le outside, scan]

theorem Stands.front (stands : Stands memory start (early ++ late)) : Stands memory start early := by
  intro index inside
  rw [stands index (by rw [List.length_append]; omega), List.getElem_append_left inside]

theorem Stands.rest (stands : Stands memory start (early ++ late)) :
    Stands memory (start + early.length) late := by
  intro index inside
  have here := stands (early.length + index) (by rw [List.length_append]; omega)
  rw [List.getElem_append_right (by omega)] at here
  simpa [Nat.add_assoc] using here

theorem Stands.head {first : α} (stands : Stands memory start (first :: late)) :
    memory start = first :=
  stands 0 (Nat.zero_lt_succ _)

theorem Stands.keep {value : α} (stands : Stands memory start text)
    (away : place < start ∨ start + text.length ≤ place) :
    Stands (Function.update memory place value) start text := by
  intro index inside
  rw [Function.update_of_ne (by omega), stands index inside]

theorem Stands.span (stands : Stands memory start text) :
    span memory start (start + text.length) = text := by
  apply List.ext_getElem
  · simp [CString.span]
  · intro index _ inside
    simp only [CString.span, List.getElem_map, List.getElem_range', Nat.one_mul]
    exact stands index inside

theorem Stands.scanned (stands : Stands memory start early)
    (passed : ∀ item ∈ early, ¬ stop item) (found : stop (memory (start + early.length)))
    (inside : start + early.length < limit) :
    scanTo stop memory limit start = some (start + early.length) := by
  refine scanTo_spec.mpr ⟨by omega, inside, found, fun index low high => ?_⟩
  have here := stands (index - start) (by omega)
  rw [Nat.add_sub_cancel' low] at here
  rw [here]
  exact passed _ (List.getElem_mem _)

end Scan

variable [Zero α] [DecidableEq α]

structure IsString (memory : Nat → α) (start : Nat) (text : List α) : Prop where
  stands : Stands memory start text
  nonzero : ∀ item ∈ text, item ≠ 0
  ends : memory (start + text.length) = 0

def readString (memory : Nat → α) (limit start : Nat) : Option (List α) :=
  (scanTo (fun item => decide (item = 0)) memory limit start).map (span memory start)

def strlen (memory : Nat → α) (limit start : Nat) : Option Nat :=
  (scanTo (fun item => decide (item = 0)) memory limit start).map (· - start)

/-- The first call of `strtok` with one delimiter: the memory after it and the
token, or no token. -/
def strtok (delimiter : α) (memory : Nat → α) (limit start : Nat) :
    Option ((Nat → α) × Option Nat) := do
  let first ← scanTo (fun item => decide (item ≠ delimiter)) memory limit start
  if memory first = 0 then some (memory, none)
  else
    let last ← scanTo (fun item => decide (item = delimiter) || decide (item = 0)) memory limit first
    if memory last = 0 then some (memory, some first)
    else some (Function.update memory last 0, some first)

/-- The conversion `%s`: the word, or no word before the end of the string. -/
def scanWord (white : α → Bool) (memory : Nat → α) (limit start : Nat) : Option (List α) := do
  let first ← scanTo (fun item => !white item) memory limit start
  if memory first = 0 then some []
  else
    let last ← scanTo (fun item => white item || decide (item = 0)) memory limit first
    some (span memory first last)

section Strings
variable {memory : Nat → α} {limit start : Nat} {text early late : List α}

omit [DecidableEq α] in
theorem IsString.rest (string : IsString memory start (early ++ late)) :
    IsString memory (start + early.length) late := by
  obtain ⟨stands, nonzero, ends⟩ := string
  refine ⟨stands.rest, fun item member => nonzero item (List.mem_append_right _ member), ?_⟩
  rwa [List.length_append, ← Nat.add_assoc] at ends

omit [DecidableEq α] in
theorem IsString.cut (string : IsString memory start (early ++ late)) :
    IsString (Function.update memory (start + early.length) 0) start early :=
  ⟨string.stands.front.keep (Or.inr (Nat.le_refl _)),
    fun item member => string.nonzero item (List.mem_append_left _ member),
    Function.update_self ..⟩

omit [DecidableEq α] in
theorem IsString.behind_cut {place : Nat} (string : IsString memory start text)
    (before : place < start) : IsString (Function.update memory place 0) start text :=
  ⟨string.stands.keep (Or.inl before), string.nonzero, by
    rw [Function.update_of_ne (by omega)]
    exact string.ends⟩

omit [DecidableEq α] in
theorem IsString.unique {other : List α} (string : IsString memory start text)
    (second : IsString memory start other) : text = other := by
  have no_longer {first second : List α} (one : IsString memory start first)
      (two : IsString memory start second) : first.length ≤ second.length := by
    by_contra longer
    have inside : second.length < first.length := Nat.lt_of_not_le longer
    exact one.nonzero _ (List.getElem_mem inside) ((one.stands _ inside).symm.trans two.ends)
  have same := Nat.le_antisymm (no_longer string second) (no_longer second string)
  refine List.ext_getElem same fun index here there => ?_
  rw [← string.stands index here, second.stands index there]

theorem Stands.ended (stands : Stands memory start text) (ends : memory (start + text.length) = 0) :
    IsString memory start (text.takeWhile fun item => decide (item ≠ 0)) := by
  have split := text.takeWhile_append_dropWhile (p := fun item => decide (item ≠ 0))
  have passed : ∀ item ∈ text.takeWhile fun item => decide (item ≠ 0), item ≠ 0 := by
    intro item member
    simpa using List.mem_takeWhile_imp member
  have stopped : ∀ item ∈ (text.dropWhile fun item => decide (item ≠ 0)).head?, item = 0 := by
    intro item first
    have refused := List.head?_dropWhile_not (fun item => decide (item ≠ 0)) text
    rw [first] at refused
    simpa using refused
  revert split passed stopped
  generalize (text.takeWhile fun item => decide (item ≠ 0)) = early
  generalize (text.dropWhile fun item => decide (item ≠ 0)) = late
  rintro rfl passed stopped
  refine ⟨stands.front, passed, ?_⟩
  cases late with
  | nil => simpa using ends
  | cons item items => rw [stands.rest.head, stopped item rfl]

theorem IsString.scan_until (stop : α → Bool) (string : IsString memory start text)
    (inside : start + text.length < limit) :
    scanTo (fun item => stop item || decide (item = 0)) memory limit start =
        some (start + (text.takeWhile fun item => !stop item).length) ∧
      IsString memory (start + (text.takeWhile fun item => !stop item).length)
        (text.dropWhile fun item => !stop item) := by
  have split := text.takeWhile_append_dropWhile (p := fun item => !stop item)
  have passed : ∀ item ∈ text.takeWhile fun item => !stop item, stop item = false := by
    intro item member
    simpa using List.mem_takeWhile_imp member
  have stopped : ∀ item ∈ (text.dropWhile fun item => !stop item).head?, stop item := by
    intro item first
    have refused := List.head?_dropWhile_not (fun item => !stop item) text
    rw [first] at refused
    simpa using refused
  revert split passed stopped
  generalize (text.takeWhile fun item => !stop item) = early
  generalize (text.dropWhile fun item => !stop item) = late
  rintro rfl passed stopped
  rw [List.length_append] at inside
  have rest := string.rest
  refine ⟨string.stands.front.scanned (fun item member => ?_) ?_ (by omega), rest⟩
  · simp [passed item member, string.nonzero item (List.mem_append_left _ member)]
  · cases late with
    | nil =>
        have ends : memory (start + early.length) = 0 := rest.ends
        simp [ends]
    | cons item items =>
        rw [rest.stands.head]
        simp [stopped item rfl]

/-- A scan passes over a prefix of the string, unless it looks for something else
than a NUL. -/
theorem IsString.scan_while (stop : α → Bool) (nul : stop 0) (string : IsString memory start text)
    (inside : start + text.length < limit) :
    scanTo stop memory limit start =
        some (start + (text.takeWhile fun item => !stop item).length) ∧
      IsString memory (start + (text.takeWhile fun item => !stop item).length)
        (text.dropWhile fun item => !stop item) := by
  have same : (fun item => stop item || decide (item = 0)) = stop := by
    funext item
    by_cases zero : item = 0
    · simp [zero, nul]
    · simp [zero]
  have scanned := string.scan_until stop inside
  rwa [same] at scanned

theorem IsString.scanned (string : IsString memory start text)
    (inside : start + text.length < limit) :
    scanTo (fun item => decide (item = 0)) memory limit start = some (start + text.length) :=
  string.stands.scanned (fun item member => by simpa using string.nonzero item member)
    (by simpa using string.ends) inside

theorem IsString.read (string : IsString memory start text) (inside : start + text.length < limit) :
    readString memory limit start = some text := by
  rw [readString, string.scanned inside, Option.map_some, string.stands.span]

theorem IsString.length (string : IsString memory start text)
    (inside : start + text.length < limit) : strlen memory limit start = some text.length := by
  rw [strlen, string.scanned inside, Option.map_some, Nat.add_sub_cancel_left]

omit [DecidableEq α] in
theorem string_before {place : Nat} (low : start ≤ place) (zero : memory place = 0) :
    ∃ text, IsString memory start text ∧ start + text.length ≤ place := by
  classical
  have ended : ∃ place, start ≤ place ∧ memory place = 0 := ⟨place, low, zero⟩
  have first := Nat.find_min' ended ⟨low, zero⟩
  obtain ⟨above, nul⟩ := Nat.find_spec ended
  have least := fun {earlier} => @Nat.find_min _ _ ended earlier
  generalize Nat.find ended = last at first above nul least
  have size : (span memory start last).length = last - start := by simp [CString.span]
  refine ⟨span memory start last, ⟨fun index here => ?_, fun item member => ?_, ?_⟩, by omega⟩
  · simp [CString.span]
  · obtain ⟨index, here, rfl⟩ := List.mem_iff_getElem.mp member
    simp only [CString.span, List.getElem_map, List.getElem_range', Nat.one_mul]
    exact fun nul => least (by omega) ⟨by omega, nul⟩
  · rw [size, Nat.add_sub_cancel' above]
    exact nul

/-- The token is the first run without a delimiter, and the element behind it
becomes a NUL if it is not one. A line of delimiters has no token. -/
theorem strtok_spec (delimiter : α) (nonzero : delimiter ≠ 0) (string : IsString memory start text)
    (inside : start + text.length < limit) {blanks later run : List α}
    (front : text.takeWhile (fun item => decide (item = delimiter)) = blanks)
    (back : text.dropWhile (fun item => decide (item = delimiter)) = later)
    (word : later.takeWhile (fun item => decide (item ≠ delimiter)) = run) :
    strtok delimiter memory limit start =
      some (if later = [] then (memory, none)
        else (Function.update memory (start + blanks.length + run.length) 0,
          some (start + blanks.length))) := by
  have skip : (fun item : α => !decide (item ≠ delimiter)) = fun item => decide (item = delimiter) := by
    funext item
    simp
  obtain ⟨first, tail⟩ := string.scan_while (fun item => decide (item ≠ delimiter))
    (by simpa using nonzero.symm) inside
  rw [skip, front] at first tail
  rw [back] at tail
  rw [strtok, first, Option.bind_eq_bind, Option.bind_some]
  cases later with
  | nil =>
      have ends : memory (start + blanks.length) = 0 := tail.ends
      rw [if_pos ends, if_pos rfl]
  | cons item items =>
      have used : memory (start + blanks.length) ≠ 0 := by
        rw [tail.stands.head]
        exact tail.nonzero item List.mem_cons_self
      have size := length_parts (fun item => decide (item = delimiter)) text
      rw [front, back] at size
      have room : start + blanks.length + (item :: items).length < limit := by omega
      obtain ⟨last, _⟩ := tail.scan_until (fun item => decide (item = delimiter)) room
      have same : (fun item : α => !decide (item = delimiter)) = fun item => decide (item ≠ delimiter) := by
        funext item
        simp
      rw [same, word] at last
      rw [if_neg used, last, Option.bind_some, if_neg (List.cons_ne_nil _ _)]
      by_cases ends : memory (start + blanks.length + run.length) = 0
      · rw [if_pos ends, Function.update_eq_self_iff.mpr ends.symm]
      · rw [if_neg ends]

theorem IsString.word (white : α → Bool) (nul : white 0 = false)
    (string : IsString memory start text) (inside : start + text.length < limit) :
    scanWord white memory limit start =
      some ((text.dropWhile white).takeWhile fun item => !white item) := by
  obtain ⟨first, tail⟩ := string.scan_while (fun item => !white item) (by simp [nul]) inside
  simp only [Bool.not_not] at first tail
  have size := length_parts white text
  rw [scanWord, first, Option.bind_eq_bind, Option.bind_some]
  generalize text.takeWhile white = blanks at tail size
  generalize text.dropWhile white = later at tail size
  cases later with
  | nil =>
      have ends : memory (start + blanks.length) = 0 := tail.ends
      rw [if_pos ends, List.takeWhile_nil]
  | cons item items =>
      have used : memory (start + blanks.length) ≠ 0 := by
        rw [tail.stands.head]
        exact tail.nonzero item List.mem_cons_self
      have room : start + blanks.length + (item :: items).length < limit := by omega
      obtain ⟨last, _⟩ := tail.scan_until white room
      have split := (item :: items).takeWhile_append_dropWhile (p := fun item => !white item)
      have stands := tail.stands
      rw [← split] at stands
      rw [if_neg used, last, Option.bind_some, stands.front.span]

end Strings

end MulticoreRtos.CString
