import MulticoreRtos.LinkedList

/-!
Stable priority queues. `nodes` is in the order of a key, `arrivals` has the
same nodes in the order they came, and nodes of one key stand in both in the
same order. An insertion before the first larger key is an arrival, and the
first node is the oldest one of the least key.
-/

namespace MulticoreRtos.StableQueue

open LinkedList

universe u
variable {Node : Type u} {key : Node → Nat} {arrivals nodes rest : List Node} {new t : Node}

structure Stable (key : Node → Nat) (arrivals nodes : List Node) : Prop where
  once : nodes.Nodup
  sorted : nodes.Pairwise fun a b => key a ≤ key b
  level : ∀ rank, nodes.filter (key · = rank) = arrivals.filter (key · = rank)

theorem Stable.nil : Stable key [] [] :=
  ⟨List.nodup_nil, List.Pairwise.nil, fun _ => rfl⟩

theorem Stable.mem_iff (stable : Stable key arrivals nodes) (t : Node) :
    t ∈ nodes ↔ t ∈ arrivals := by
  have same : t ∈ nodes.filter (key · = key t) ↔ t ∈ arrivals.filter (key · = key t) := by
    rw [stable.level]
  simpa using same

theorem Stable.congr {key' : Node → Nat} (stable : Stable key arrivals nodes)
    (same : ∀ t ∈ nodes, key' t = key t) : Stable key' arrivals nodes := by
  refine ⟨stable.once, ?_, fun rank => ?_⟩
  · refine stable.sorted.imp_of_mem ?_
    intro a b a_member b_member ordered
    rwa [same a a_member, same b b_member]
  · have listed : nodes.filter (key' · = rank) = nodes.filter (key · = rank) :=
      List.filter_congr fun t member => by rw [same t member]
    have arrived : arrivals.filter (key' · = rank) = arrivals.filter (key · = rank) :=
      List.filter_congr fun t member => by rw [same t ((stable.mem_iff t).mpr member)]
    rw [listed, arrived, stable.level]

/-! A node arrives -/

/-- The new node stands behind those of its own key. -/
theorem filter_insertByKey (sorted : nodes.Pairwise fun a b => key a ≤ key b) (rank : Nat) :
    (insertByKey key new nodes).filter (key · = rank) =
      nodes.filter (key · = rank) ++ [new].filter (key · = rank) := by
  induction nodes with
  | nil => rfl
  | cons x rest ih =>
      obtain ⟨first, others⟩ := List.pairwise_cons.mp sorted
      by_cases before : key new < key x
      · have larger (y : Node) (member : y ∈ x :: rest) : key new < key y := by
          rcases List.mem_cons.mp member with rfl | behind
          · exact before
          · exact before.trans_le (first y behind)
        simp only [insertByKey, List.orderedInsert, before, if_true]
        by_cases level : key new = rank
        · have nobody : (x :: rest).filter (key · = rank) = [] := by
            rw [List.filter_eq_nil_iff]
            intro y member
            simpa [← level] using (larger y member).ne'
          simp [nobody, level]
        · simp [List.filter_cons, level]
      · simp only [insertByKey, List.orderedInsert, before, if_false]
        have tail := ih others
        rw [insertByKey] at tail
        rw [List.filter_cons, tail]
        by_cases level : key x = rank
        · simp [List.filter_cons, level]
        · simp [List.filter_cons, level]

theorem Stable.insert (stable : Stable key arrivals nodes) (fresh : new ∉ nodes) :
    Stable key (arrivals ++ [new]) (insertByKey key new nodes) := by
  refine ⟨nodup_insertByKey key new nodes fresh stable.once,
    pairwise_insertByKey stable.sorted fun _ _ => Iff.rfl, fun rank => ?_⟩
  rw [filter_insertByKey stable.sorted, List.filter_append, stable.level]

/-! The first node leaves -/

theorem Stable.pop [DecidableEq Node] (stable : Stable key arrivals (t :: rest)) :
    Stable key (arrivals.filter (· ≠ t)) rest := by
  obtain ⟨fresh, once⟩ := List.nodup_cons.mp stable.once
  have others : (t :: rest).filter (· ≠ t) = rest := by
    rw [List.filter_cons_of_neg (by simp), List.filter_eq_self]
    intro x member
    have other : x ≠ t := by
      rintro rfl
      exact fresh member
    simpa using other
  refine ⟨once, (List.pairwise_cons.mp stable.sorted).2, fun rank => ?_⟩
  calc rest.filter (key · = rank)
    _ = ((t :: rest).filter (· ≠ t)).filter (key · = rank) := by rw [others]
    _ = ((t :: rest).filter (key · = rank)).filter (· ≠ t) := List.filter_comm ..
    _ = (arrivals.filter (key · = rank)).filter (· ≠ t) := by rw [stable.level]
    _ = (arrivals.filter (· ≠ t)).filter (key · = rank) := List.filter_comm ..

theorem Stable.first (stable : Stable key arrivals (t :: rest)) :
    (∀ u ∈ arrivals, key t ≤ key u) ∧ (arrivals.filter (key · = key t)).head? = some t := by
  constructor
  · intro u arrived
    rcases List.mem_cons.mp ((stable.mem_iff u).mpr arrived) with rfl | behind
    · exact le_rfl
    · exact (List.pairwise_cons.mp stable.sorted).1 u behind
  · rw [← stable.level, List.filter_cons_of_pos (by simp)]
    rfl

end MulticoreRtos.StableQueue
