import MulticoreRtos.MpmcFifo

/-!
The memory bound of the blocking FIFO. The indices run modulo the byte count of
the allocation and not modulo the number of element slots asked for, so the
accesses leave the element slots as soon as more than `fifo_size` elements have
been written, or read, since `fifo_init`.
-/

namespace MulticoreRtos.MpmcFifo

variable {Value : Type}

structure Moves where
  writes : Nat
  reads : Nat

def countCall (size : Nat) (moves : Moves) : Call Value → Moves
  | .put _ => ⟨moves.writes + 1, moves.reads⟩
  | .putNonblock _ =>
      if (moves.writes + 1) % size = moves.reads % size then moves
      else ⟨moves.writes + 1, moves.reads⟩
  | .get _ => ⟨moves.writes, moves.reads + 1⟩
  | .getNonblocking _ =>
      if moves.reads % size = moves.writes % size then moves
      else ⟨moves.writes, moves.reads + 1⟩

def countMoves (size : Nat) (calls : List (Call Value)) : Moves :=
  calls.foldl (countCall size) ⟨0, 0⟩

structure Counted (fifo : Fifo Value) (moves : Moves) : Prop where
  nonzero : 0 < fifo.size
  word : fifo.size < 2 ^ 32
  copied : Copied fifo.elementSize
  tail : fifo.tail = moves.writes % fifo.size
  head : fifo.head = moves.reads % fifo.size

def Made (size : Nat) (before after : Moves) (access : Access) : Prop :=
  (∃ k, before.writes ≤ k ∧ k < after.writes ∧ access = .write (k % size)) ∨
    ∃ k, before.reads ≤ k ∧ k < after.reads ∧ access = .read (k % size)

theorem advance_counted (count size : Nat) (nonzero : 0 < size) (word : size < 2 ^ 32) :
    advance (count % size) size = some ((count + 1) % size) := by
  have below : count % size + 1 < 2 ^ 32 :=
    lt_of_le_of_lt (Nat.mod_lt count nonzero) word
  rw [advance, if_neg nonzero.ne', Nat.mod_eq_of_lt below, Nat.mod_add_mod]

theorem countCall_le (size : Nat) (moves : Moves) (call : Call Value) :
    moves.writes ≤ (countCall size moves call).writes ∧
      moves.reads ≤ (countCall size moves call).reads := by
  cases call with
  | put value => simp [countCall]
  | get buffer => simp [countCall]
  | putNonblock value => by_cases full : (moves.writes + 1) % size = moves.reads % size <;>
      simp [countCall, full]
  | getNonblocking buffer => by_cases empty : moves.reads % size = moves.writes % size <;>
      simp [countCall, empty]

theorem countCalls_le (size : Nat) (calls : List (Call Value)) (moves : Moves) :
    moves.writes ≤ (calls.foldl (countCall size) moves).writes ∧
      moves.reads ≤ (calls.foldl (countCall size) moves).reads := by
  induction calls generalizing moves with
  | nil => exact ⟨le_refl _, le_refl _⟩
  | cons call rest ih =>
      obtain ⟨writes, reads⟩ := countCall_le size moves call
      obtain ⟨later_writes, later_reads⟩ := ih (countCall size moves call)
      exact ⟨writes.trans later_writes, reads.trans later_reads⟩

theorem made_trans (size : Nat) {first second third : Moves} (access : Access)
    (writes : first.writes ≤ second.writes ∧ second.writes ≤ third.writes)
    (reads : first.reads ≤ second.reads ∧ second.reads ≤ third.reads) :
    Made size first third access ↔ Made size first second access ∨ Made size second third access := by
  constructor
  · rintro (⟨k, low, high, same⟩ | ⟨k, low, high, same⟩)
    · rcases lt_or_ge k second.writes with early | late
      · exact Or.inl (Or.inl ⟨k, low, early, same⟩)
      · exact Or.inr (Or.inl ⟨k, late, high, same⟩)
    · rcases lt_or_ge k second.reads with early | late
      · exact Or.inl (Or.inr ⟨k, low, early, same⟩)
      · exact Or.inr (Or.inr ⟨k, late, high, same⟩)
  · rintro ((⟨k, low, high, same⟩ | ⟨k, low, high, same⟩) |
      (⟨k, low, high, same⟩ | ⟨k, low, high, same⟩))
    · exact Or.inl ⟨k, low, high.trans_le writes.2, same⟩
    · exact Or.inr ⟨k, low, high.trans_le reads.2, same⟩
    · exact Or.inl ⟨k, writes.1.trans low, high, same⟩
    · exact Or.inr ⟨k, reads.1.trans low, high, same⟩

theorem made_write (size : Nat) (moves : Moves) (access : Access) :
    Made size moves ⟨moves.writes + 1, moves.reads⟩ access ↔
      access = .write (moves.writes % size) := by
  constructor
  · rintro (⟨k, low, high, same⟩ | ⟨k, low, high, _⟩)
    · rw [same, le_antisymm (Nat.lt_succ_iff.mp high) low]
    · exact absurd high (Nat.not_lt.mpr low)
  · intro same
    exact Or.inl ⟨moves.writes, le_refl _, Nat.lt_succ_self _, same⟩

theorem made_read (size : Nat) (moves : Moves) (access : Access) :
    Made size moves ⟨moves.writes, moves.reads + 1⟩ access ↔
      access = .read (moves.reads % size) := by
  constructor
  · rintro (⟨k, low, high, _⟩ | ⟨k, low, high, same⟩)
    · exact absurd high (Nat.not_lt.mpr low)
    · rw [same, le_antisymm (Nat.lt_succ_iff.mp high) low]
  · intro same
    exact Or.inr ⟨moves.reads, le_refl _, Nat.lt_succ_self _, same⟩

theorem made_none (size : Nat) (moves : Moves) (access : Access) :
    ¬ Made size moves moves access := by
  rintro (⟨k, low, high, _⟩ | ⟨k, low, high, _⟩) <;> exact absurd high (Nat.not_lt.mpr low)

/-- A call that completes makes exactly the accesses its count allows for. -/
def Accounts (fifo : Fifo Value) (moves : Moves) (call : Call Value) (done : Done Value) : Prop :=
  done.fifo.size = fifo.size ∧ Counted done.fifo (countCall fifo.size moves call) ∧
    ∀ access, access ∈ done.accesses ↔ Made fifo.size moves (countCall fifo.size moves call) access

section Calls
variable {fifo : Fifo Value} {moves : Moves} {done : Done Value}

theorem fifoPut_accounts (counted : Counted fifo moves) (value : Value)
    (performed : fifoPut fifo value = some done) : Accounts fifo moves (.put value) done := by
  simp only [fifoPut, Option.bind_eq_bind, Option.bind_eq_some_iff, advanceTail, copyIn,
    counted.copied, if_true, counted.tail, advance_counted _ _ counted.nonzero counted.word,
    Option.map_some, Option.some.injEq] at performed
  obtain ⟨full, _, mutex, _, moved, rfl, empty, _, rfl⟩ := performed
  refine ⟨rfl, ⟨counted.nonzero, counted.word, counted.copied, rfl, counted.head⟩, ?_⟩
  intro access
  rw [countCall, made_write, storeAccess, if_pos counted.copied, counted.tail, List.mem_singleton]

theorem fifoGet_accounts (counted : Counted fifo moves) (buffer : Value)
    (performed : fifoGet fifo buffer = some done) : Accounts fifo moves (.get buffer) done := by
  simp only [fifoGet, Option.bind_eq_bind, Option.bind_eq_some_iff, advanceHead,
    counted.head, advance_counted _ _ counted.nonzero counted.word,
    Option.map_some, Option.some.injEq] at performed
  obtain ⟨empty, _, mutex, _, moved, rfl, full, _, rfl⟩ := performed
  refine ⟨rfl, ⟨counted.nonzero, counted.word, counted.copied, counted.tail, rfl⟩, ?_⟩
  intro access
  rw [countCall, made_read, loadAccess, if_pos counted.copied, counted.head, List.mem_singleton]

theorem refused_accounts (counted : Counted fifo moves) (call : Call Value) (value : Value)
    (refused : countCall fifo.size moves call = moves) :
    Accounts fifo moves call ⟨fifo, true, value, []⟩ := by
  rw [Accounts, refused]
  exact ⟨rfl, counted, fun access => by simp [made_none]⟩

theorem fifoPutNonblock_accounts (counted : Counted fifo moves) (value : Value)
    (performed : fifoPutNonblock fifo value = some done) :
    Accounts fifo moves (.putNonblock value) done := by
  simp only [fifoPutNonblock, Option.bind_eq_bind, advanceTail, copyIn, counted.copied, if_true,
    counted.tail, counted.head, advance_counted _ _ counted.nonzero counted.word,
    Option.map_some, Option.bind_some] at performed
  by_cases full : (moves.writes + 1) % fifo.size = moves.reads % fifo.size
  · rw [if_pos full, Option.some.injEq] at performed
    rw [← performed]
    exact refused_accounts counted _ value (if_pos full)
  · rw [if_neg full, Option.some.injEq] at performed
    rw [← performed, Accounts, countCall, if_neg full]
    refine ⟨rfl, ⟨counted.nonzero, counted.word, counted.copied, rfl, rfl⟩, ?_⟩
    intro access
    rw [made_write, storeAccess, if_pos counted.copied, counted.tail, List.mem_singleton]

theorem fifoGetNonblocking_accounts (counted : Counted fifo moves) (buffer : Value)
    (performed : fifoGetNonblocking fifo buffer = some done) :
    Accounts fifo moves (.getNonblocking buffer) done := by
  simp only [fifoGetNonblocking, Option.bind_eq_bind, advanceHead, counted.tail, counted.head,
    advance_counted _ _ counted.nonzero counted.word, Option.map_some, Option.bind_some] at performed
  by_cases empty : moves.reads % fifo.size = moves.writes % fifo.size
  · rw [if_pos empty, Option.some.injEq] at performed
    rw [← performed]
    exact refused_accounts counted _ buffer (if_pos empty)
  · rw [if_neg empty, Option.some.injEq] at performed
    rw [← performed, Accounts, countCall, if_neg empty]
    refine ⟨rfl, ⟨counted.nonzero, counted.word, counted.copied, rfl, rfl⟩, ?_⟩
    intro access
    rw [made_read, loadAccess, if_pos counted.copied, counted.head, List.mem_singleton]

theorem perform_accounts (counted : Counted fifo moves) (call : Call Value)
    (performed : perform fifo call = some done) : Accounts fifo moves call done := by
  cases call with
  | put value => exact fifoPut_accounts counted value performed
  | putNonblock value => exact fifoPutNonblock_accounts counted value performed
  | get buffer => exact fifoGet_accounts counted buffer performed
  | getNonblocking buffer => exact fifoGetNonblocking_accounts counted buffer performed

end Calls

theorem performAll_made (calls : List (Call Value)) {fifo : Fifo Value} {moves : Moves}
    {trace : List Access} (counted : Counted fifo moves)
    (performed : performAll fifo calls = some trace) (access : Access) :
    access ∈ trace ↔ Made fifo.size moves (calls.foldl (countCall fifo.size) moves) access := by
  induction calls generalizing fifo moves trace with
  | nil =>
      cases performed
      simp [made_none]
  | cons call rest ih =>
      simp only [performAll, Option.bind_eq_bind, Option.bind_eq_some_iff,
        Option.some.injEq] at performed
      obtain ⟨done, once, later, others, rfl⟩ := performed
      obtain ⟨same, next, here⟩ := perform_accounts counted call once
      have there := ih next others
      have step := countCall_le fifo.size moves call
      have run := countCalls_le fifo.size rest (countCall fifo.size moves call)
      rw [same] at there
      rw [List.mem_append, here, there, List.foldl_cons]
      exact (made_trans fifo.size access ⟨step.1, run.1⟩ ⟨step.2, run.2⟩).symm

/-- The `fifo_size * element_size` bytes of data asked for hold the element. -/
def Inside (fifoSize elementSize : Nat) (access : Access) : Prop :=
  access.index * elementSize + elementSize ≤ fifoSize * elementSize

theorem inside_iff (fifoSize elementSize : Nat) (copied : Copied elementSize) (access : Access) :
    Inside fifoSize elementSize access ↔ access.index < fifoSize := by
  have positive : 0 < elementSize := by
    rcases copied with rfl | rfl | rfl | rfl <;> decide
  rw [Inside, ← Nat.succ_mul, Nat.mul_le_mul_right_iff positive, Nat.succ_le_iff]

theorem fifoInit_some {heapPtr : Nat} {tree after : Heap.Tree} {memory : Nat → Value}
    {fifoSize elementSize : Nat} {fifo : Fifo Value}
    (made : fifoInit heapPtr tree memory fifoSize elementSize = some (after, some fifo)) :
    initByteCount fifoSize elementSize ≤ Heap.heapSize ∧
      fifo = ⟨0, toInt32 fifoSize, 0, initByteCount fifoSize elementSize, elementSize, 0, 0,
        memory⟩ := by
  simp only [fifoInit, Option.map_eq_some_iff] at made
  obtain ⟨⟨marked, ptr⟩, allocated, answer⟩ := made
  by_cases failed : ptr = Heap.null
  · simp [failed] at answer
  · simp only [failed, if_false, Prod.mk.injEq, Option.some.injEq] at answer
    exact ⟨Heap.malloc_bounded allocated failed, answer.2.symm⟩

theorem fifoInit_counted {heapPtr : Nat} {tree after : Heap.Tree} {memory : Nat → Value}
    {fifoSize elementSize : Nat} {fifo : Fifo Value} (copied : Copied elementSize)
    (fits : sizeofFifo + fifoSize * elementSize < 2 ^ 32)
    (made : fifoInit heapPtr tree memory fifoSize elementSize = some (after, some fifo)) :
    fifo.size = sizeofFifo + fifoSize * elementSize ∧ Counted fifo ⟨0, 0⟩ := by
  obtain ⟨_, rfl⟩ := fifoInit_some made
  have exact_count : initByteCount fifoSize elementSize = sizeofFifo + fifoSize * elementSize :=
    Nat.mod_eq_of_lt fits
  refine ⟨exact_count, ?_, Nat.mod_lt _ (by decide), copied, (Nat.zero_mod _).symm,
    (Nat.zero_mod _).symm⟩
  change 0 < initByteCount fifoSize elementSize
  rw [exact_count]
  exact Nat.add_pos_left (by decide) _

/-- The accesses of a sequence of calls stay inside the data bytes asked for
exactly when it writes and reads at most `fifo_size` elements. -/
theorem accesses_inside_iff (heapPtr : Nat) (tree after : Heap.Tree) (memory : Nat → Value)
    (fifoSize elementSize : Nat) (fifo : Fifo Value) (copied : Copied elementSize)
    (fits : sizeofFifo + fifoSize * elementSize < 2 ^ 32)
    (made : fifoInit heapPtr tree memory fifoSize elementSize = some (after, some fifo))
    (calls : List (Call Value)) (trace : List Access)
    (performed : performAll fifo calls = some trace) :
    (∀ access ∈ trace, Inside fifoSize elementSize access) ↔
      (countMoves (initByteCount fifoSize elementSize) calls).writes ≤ fifoSize ∧
        (countMoves (initByteCount fifoSize elementSize) calls).reads ≤ fifoSize := by
  obtain ⟨size, counted⟩ := fifoInit_counted copied fits made
  have accesses := performAll_made calls counted performed
  have wide : fifoSize < fifo.size := by
    have positive : 1 ≤ elementSize := by rcases copied with rfl | rfl | rfl | rfl <;> decide
    have grown := Nat.mul_le_mul_left fifoSize positive
    rw [size, sizeofFifo]
    omega
  have small : initByteCount fifoSize elementSize = fifo.size := by
    rw [size]
    exact Nat.mod_eq_of_lt fits
  rw [small, countMoves]
  constructor
  · intro inside
    -- access number `fifoSize` is the first one behind the buffer
    have outside (access : Access) (index : access.index = fifoSize % fifo.size) :
        access ∉ trace := by
      intro member
      have low := (inside_iff fifoSize elementSize copied access).mp (inside access member)
      rw [index, Nat.mod_eq_of_lt wide] at low
      exact lt_irrefl _ low
    constructor
    · by_contra more
      exact outside (.write _) rfl
        ((accesses _).mpr (Or.inl ⟨fifoSize, Nat.zero_le _, Nat.lt_of_not_le more, rfl⟩))
    · by_contra more
      exact outside (.read _) rfl
        ((accesses _).mpr (Or.inr ⟨fifoSize, Nat.zero_le _, Nat.lt_of_not_le more, rfl⟩))
  · rintro ⟨writes, reads⟩ access member
    rw [inside_iff fifoSize elementSize copied]
    rcases (accesses access).mp member with ⟨k, _, high, rfl⟩ | ⟨k, _, high, rfl⟩
    · exact lt_of_le_of_lt (Nat.mod_le k fifo.size) (high.trans_le writes)
    · exact lt_of_le_of_lt (Nat.mod_le k fifo.size) (high.trans_le reads)

def byteFifo (capacity : Nat) : Fifo Nat := ⟨0, capacity, 0, 40 + capacity, 1, 0, 0, fun _ => 0⟩

theorem accesses_inside_iff_two :
    ∃ after trace,
      fifoInit 0x20000800 Heap.heapInit (fun _ => 0) 2 1 = some (after, some (byteFifo 2)) ∧
        performAll (byteFifo 2) [.put 7, .get 0, .putNonblock 8] = some trace ∧
        ∀ access ∈ trace, Inside 2 1 access :=
  ⟨_, _, rfl, rfl,
    (accesses_inside_iff 0x20000800 Heap.heapInit _ (fun _ => 0) 2 1 (byteFifo 2) (by decide)
      (by decide) rfl [.put 7, .get 0, .putNonblock 8] _ rfl).mpr (by decide)⟩

/-- `fifo_init(1, 1)`, then a put, a get and a put: the second element is stored
behind the one byte of data. -/
theorem second_element_outside :
    ∃ after, fifoInit 0x20000800 Heap.heapInit (fun _ => 0) 1 1 = some (after, some (byteFifo 1)) ∧
      performAll (byteFifo 1) [.put 7, .get 0, .put 8] = some [.write 0, .read 0, .write 1] ∧
      ¬ Inside 1 1 (.write 1) :=
  ⟨_, rfl, rfl, by simp [Inside, Access.index]⟩

end MulticoreRtos.MpmcFifo
