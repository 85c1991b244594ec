import Mathlib.Data.List.Chain
import Mathlib.Data.List.Sort
import Mathlib.Logic.Function.Basic

/-!
Intrusive linked lists over link fields `next` and `prev`, given as maps from
nodes to nodes. `Chain` is a singly linked list that ends in `null`; `Ring` is a
circular doubly linked list seen from its root. Both name the nodes met, in
order. Link fields of nodes outside a list never matter to it.
-/

namespace MulticoreRtos.LinkedList

universe u
variable {Node : Type u} [DecidableEq Node] {null : Node} {next prev : Node → Node}

/-! Singly linked lists. -/

def Chain (null : Node) (next : Node → Node) : Node → List Node → Prop
  | root, [] => root = null
  | root, x :: rest => root = x ∧ x ≠ null ∧ Chain null next (next x) rest

omit [DecidableEq Node] in
theorem Chain.congr {next' : Node → Node} (nodes : List Node) {root : Node}
    (same : ∀ x ∈ nodes, next' x = next x) (chain : Chain null next root nodes) :
    Chain null next' root nodes := by
  induction nodes generalizing root with
  | nil => exact chain
  | cons x rest ih =>
      obtain ⟨rfl, present, tail⟩ := chain
      refine ⟨rfl, present, ih (fun y member => same y (List.mem_cons_of_mem _ member)) ?_⟩
      rw [same root List.mem_cons_self]
      exact tail

omit [DecidableEq Node] in
theorem Chain.null_iff {root : Node} {nodes : List Node} (chain : Chain null next root nodes) :
    root = null ↔ nodes = [] := by
  cases nodes with
  | nil => exact ⟨fun _ => rfl, fun _ => chain⟩
  | cons x rest => simp [chain.1, chain.2.1]

omit [DecidableEq Node] in
theorem Chain.root_mem {root : Node} {nodes : List Node} (chain : Chain null next root nodes)
    (present : root ≠ null) : root ∈ nodes := by
  cases nodes with
  | nil => exact absurd chain present
  | cons x rest => simp [chain.1]

theorem Chain.push {root new : Node} {nodes : List Node} (chain : Chain null next root nodes)
    (fresh : new ∉ nodes) (present : new ≠ null) :
    Chain null (Function.update next new root) new (new :: nodes) := by
  refine ⟨rfl, present, ?_⟩
  rw [Function.update_self]
  refine chain.congr nodes fun x member => Function.update_of_ne ?_ _ _
  rintro rfl
  exact fresh member

def insertByKey (key : Node → Nat) (new : Node) (nodes : List Node) : List Node :=
  nodes.orderedInsert (fun a b => key a < key b) new

/-- The walk that looks for the place of `new` behind `node`, and the link
fields it leaves. `none` is a walk that outlasts `fuel`. -/
def walkInsert (null : Node) (key : Node → Nat) (new : Node) :
    Nat → (Node → Node) → Node → Option (Node → Node)
  | 0, _, _ => none
  | fuel + 1, next, node =>
      if next node = null then some (Function.update next node new)
      else if key new < key (next node) then
        some (Function.update (Function.update next new (next node)) node new)
      else walkInsert null key new fuel next (next node)

theorem walkInsert_spec (key : Node → Nat) (new : Node) (rest : List Node) :
    ∀ (fuel : Nat) (node : Node), Chain null next node (node :: rest) → new ∉ node :: rest →
      new ≠ null → (node :: rest).Nodup → next new = null → rest.length < fuel →
      ¬ key new < key node →
      ∃ linked, walkInsert null key new fuel next node = some linked ∧
        Chain null linked node (insertByKey key new (node :: rest)) ∧
        ∀ x, x ∉ node :: rest → x ≠ new → linked x = next x := by
  induction rest with
  | nil =>
      intro fuel node chain fresh present _ loose enough behind
      obtain ⟨fuel, rfl⟩ : ∃ n, fuel = n + 1 := ⟨fuel - 1, by simp at enough; omega⟩
      have last : next node = null := chain.2.2
      have apart : new ≠ node := fun equal => fresh (by simp [equal])
      refine ⟨Function.update next node new, by simp [walkInsert, last], ?_, ?_⟩
      · simp only [insertByKey, List.orderedInsert, behind, if_false]
        refine ⟨rfl, chain.2.1, ?_⟩
        rw [Function.update_self]
        exact ⟨rfl, present, by rw [Function.update_of_ne apart]; exact loose⟩
      · intro x outside _
        exact Function.update_of_ne (fun equal => outside (by simp [equal])) _ _
  | cons y rest ih =>
      intro fuel node chain fresh present distinct loose enough behind
      obtain ⟨fuel, rfl⟩ : ∃ n, fuel = n + 1 := ⟨fuel - 1, by simp at enough; omega⟩
      obtain ⟨_, node_present, reached, y_present, tail⟩ := chain
      have apart : new ≠ node := fun equal => fresh (by simp [equal])
      have node_fresh : node ∉ y :: rest := (List.nodup_cons.mp distinct).1
      have new_fresh : new ∉ y :: rest := fun member => fresh (List.mem_cons_of_mem _ member)
      have tail_chain : Chain null next y (y :: rest) := ⟨rfl, y_present, tail⟩
      by_cases before : key new < key y
      · -- the walk stops here, and `new` goes between `node` and `y`
        refine ⟨Function.update (Function.update next new (next node)) node new, ?_, ?_, ?_⟩
        · simp [walkInsert, reached, y_present, before]
        · simp only [insertByKey, List.orderedInsert, behind, before, if_false, if_true]
          refine ⟨rfl, node_present, ?_⟩
          rw [Function.update_self]
          have pushed := tail_chain.push new_fresh present
          rw [reached]
          refine pushed.congr _ fun x member => Function.update_of_ne ?_ _ _
          rintro rfl
          rcases List.mem_cons.mp member with equal | later
          · exact apart equal.symm
          · exact node_fresh later
        · intro x outside other
          rw [Function.update_of_ne (fun equal => outside (by simp [equal])),
            Function.update_of_ne other]
      · obtain ⟨linked, walked, linked_chain, kept⟩ := ih fuel y tail_chain new_fresh present
          (List.nodup_cons.mp distinct).2 loose (by simp at enough ⊢; omega) before
        refine ⟨linked, ?_, ?_, ?_⟩
        · simp only [walkInsert, reached, y_present, before, if_false]
          exact walked
        · have moved : insertByKey key new (node :: y :: rest) =
              node :: insertByKey key new (y :: rest) := by
            simp only [insertByKey, List.orderedInsert, behind, if_false]
          rw [moved]
          refine ⟨rfl, node_present, ?_⟩
          rw [kept node node_fresh apart.symm, reached]
          exact linked_chain
        · intro x outside other
          exact kept x (fun member => outside (List.mem_cons_of_mem _ member)) other

omit [DecidableEq Node] in
theorem mem_insertByKey (key : Node → Nat) (new x : Node) (nodes : List Node) :
    x ∈ insertByKey key new nodes ↔ x = new ∨ x ∈ nodes :=
  List.mem_orderedInsert _

omit [DecidableEq Node] in
@[simp] theorem length_insertByKey (key : Node → Nat) (new : Node) (nodes : List Node) :
    (insertByKey key new nodes).length = nodes.length + 1 :=
  List.orderedInsert_length _ nodes new

omit [DecidableEq Node] in
theorem nodup_insertByKey (key : Node → Nat) (new : Node) (nodes : List Node)
    (fresh : new ∉ nodes) (distinct : nodes.Nodup) : (insertByKey key new nodes).Nodup :=
  (List.perm_orderedInsert _ new nodes).nodup_iff.mpr (List.nodup_cons.mpr ⟨fresh, distinct⟩)

omit [DecidableEq Node] in
/-- An insertion by `key` keeps a list in the order of `rank` if the two agree
about the new node. -/
theorem pairwise_insertByKey {key rank : Node → Nat} {new : Node} {nodes : List Node}
    (sorted : nodes.Pairwise fun a b => rank a ≤ rank b)
    (agrees : ∀ x ∈ nodes, key new < key x ↔ rank new < rank x) :
    (insertByKey key new nodes).Pairwise fun a b => rank a ≤ rank b := by
  induction nodes with
  | nil => exact List.pairwise_singleton _ _
  | cons x rest ih =>
      obtain ⟨first, others⟩ := List.pairwise_cons.mp sorted
      have here := agrees x List.mem_cons_self
      by_cases before : key new < key x
      · have smaller := here.mp before
        simp only [insertByKey, List.orderedInsert, before, if_true]
        refine List.pairwise_cons.mpr ⟨?_, sorted⟩
        intro y member
        rcases List.mem_cons.mp member with rfl | behind
        · exact smaller.le
        · exact smaller.le.trans (first y behind)
      · have larger := Nat.not_lt.mp fun less => before (here.mpr less)
        simp only [insertByKey, List.orderedInsert, before, if_false]
        refine List.pairwise_cons.mpr
          ⟨?_, ih others fun y member => agrees y (List.mem_cons_of_mem _ member)⟩
        intro y member
        rcases (mem_insertByKey key new y rest).mp member with rfl | behind
        · exact larger
        · exact first y behind

/-! Circular doubly linked lists. -/

def Linked (next prev : Node → Node) (a b : Node) : Prop := next a = b ∧ prev b = a

def Ring (null : Node) (next prev : Node → Node) (root : Node) : List Node → Prop
  | [] => root = null
  | x :: rest => root = x ∧ x ≠ null ∧ List.IsChain (Linked next prev) (x :: rest ++ [x])

omit [DecidableEq Node] in
theorem Ring.null_iff {root : Node} {nodes : List Node} (ring : Ring null next prev root nodes) :
    root = null ↔ nodes = [] := by
  cases nodes with
  | nil => exact ⟨fun _ => rfl, fun _ => ring⟩
  | cons x rest => simp [ring.1, ring.2.1]

omit [DecidableEq Node] in
theorem Ring.congr {next' prev' : Node → Node} {root : Node} {nodes : List Node}
    (same : ∀ x ∈ nodes, next' x = next x ∧ prev' x = prev x)
    (ring : Ring null next prev root nodes) : Ring null next' prev' root nodes := by
  cases nodes with
  | nil => exact ring
  | cons x rest =>
      refine ⟨ring.1, ring.2.1, ring.2.2.imp_of_mem_imp ?_⟩
      rintro a b a_member b_member ⟨forward, backward⟩
      have inside : ∀ c ∈ x :: rest ++ [x], c ∈ x :: rest := by
        intro c member
        rcases List.mem_append.mp member with listed | closing
        · exact listed
        · rw [List.mem_singleton.mp closing]
          exact List.mem_cons_self
      rw [Linked, (same a (inside a a_member)).1, (same b (inside b b_member)).2]
      exact ⟨forward, backward⟩

omit [DecidableEq Node] in
theorem Ring.single {t : Node} (present : t ≠ null) (forward : next t = t) (backward : prev t = t) :
    Ring null next prev t [t] :=
  ⟨rfl, present, List.isChain_pair.mpr ⟨forward, backward⟩⟩

omit [DecidableEq Node] in
theorem Ring.links {root x : Node} {rest : List Node}
    (ring : Ring null next prev root (x :: rest)) :
    List.IsChain (Linked next prev) (x :: rest) ∧
      Linked next prev ((x :: rest).getLast (List.cons_ne_nil _ _)) x := by
  obtain ⟨inner, _, closing⟩ := List.isChain_append.mp ring.2.2
  exact ⟨inner, closing _ (List.getLast?_eq_some_getLast _) x (by simp)⟩

omit [DecidableEq Node] in
theorem Ring.of_links {x : Node} {rest : List Node} (present : x ≠ null)
    (inner : List.IsChain (Linked next prev) (x :: rest))
    (closing : Linked next prev ((x :: rest).getLast (List.cons_ne_nil _ _)) x) :
    Ring null next prev x (x :: rest) := by
  refine ⟨rfl, present, List.isChain_append.mpr ⟨inner, List.isChain_singleton x, ?_⟩⟩
  intro a a_last b b_first
  rw [List.getLast?_eq_some_getLast (List.cons_ne_nil _ _), Option.mem_some_iff] at a_last
  rw [List.head?_singleton, Option.mem_some_iff] at b_first
  rw [← a_last, ← b_first]
  exact closing

omit [DecidableEq Node] in
theorem Ring.prev_root_mem {root x : Node} {rest : List Node}
    (ring : Ring null next prev root (x :: rest)) : prev root ∈ x :: rest := by
  rw [ring.1, ring.links.2.2]
  exact List.getLast_mem (List.cons_ne_nil _ _)

/-- `enqueue` at the front: the new node goes between the last node and the
root, and becomes the root. -/
theorem Ring.push {root new : Node} {x : Node} {rest : List Node}
    (ring : Ring null next prev root (x :: rest)) (distinct : (x :: rest).Nodup)
    (fresh : new ∉ x :: rest) (present : new ≠ null) :
    Ring null (Function.update (Function.update next new root) (prev root) new)
      (Function.update (Function.update prev new (prev root)) root new) new (new :: x :: rest) := by
  obtain ⟨inner, forward, backward⟩ := ring.links
  obtain rfl : root = x := ring.1
  have last_member := List.getLast_mem (List.cons_ne_nil root rest)
  rw [← backward] at forward last_member
  have new_last : new ≠ prev root := fun equal => fresh (equal ▸ last_member)
  have new_root : new ≠ root := fun equal => fresh (by simp [equal])
  apply Ring.of_links present
  · refine List.isChain_cons_cons.mpr ⟨⟨?_, Function.update_self _ _ _⟩, ?_⟩
    · rw [Function.update_of_ne new_last, Function.update_self]
    · refine inner.imp_of_mem_tail_imp ?_
      rintro a b a_member b_member ⟨a_next, b_prev⟩
      have b_root : b ≠ root := fun equal => (List.nodup_cons.mp distinct).1 (equal ▸ b_member)
      have a_last : a ≠ prev root := fun equal => b_root (by rw [← a_next, equal, forward])
      have a_new : a ≠ new := fun equal => fresh (equal ▸ a_member)
      have b_new : b ≠ new := fun equal => fresh (equal ▸ List.mem_of_mem_tail b_member)
      refine ⟨?_, ?_⟩
      · rw [Function.update_of_ne a_last, Function.update_of_ne a_new, a_next]
      · rw [Function.update_of_ne b_root, Function.update_of_ne b_new, b_prev]
  · rw [List.getLast_cons (List.cons_ne_nil _ _), ← backward]
    refine ⟨Function.update_self _ _ _, ?_⟩
    rw [Function.update_of_ne new_root, Function.update_self]

omit [DecidableEq Node] in
theorem Ring.rotate_one {root x y : Node} {rest : List Node}
    (ring : Ring null next prev root (x :: y :: rest)) (present : y ≠ null) :
    Ring null next prev y (y :: rest ++ [x]) := by
  obtain ⟨first, tail⟩ := List.isChain_cons_cons.mp ring.2.2
  refine ⟨rfl, present, List.isChain_append.mpr ⟨tail, List.isChain_singleton y, ?_⟩⟩
  intro a a_last b b_first
  change a ∈ ((y :: rest) ++ [x]).getLast? at a_last
  rw [List.head?_singleton, Option.mem_some_iff] at b_first
  rw [List.getLast?_append, List.getLast?_singleton, Option.some_or, Option.mem_some_iff] at a_last
  have a_root : a = x := a_last.symm
  rw [a_root, ← b_first]
  exact first

omit [DecidableEq Node] in
theorem Ring.rotate {root t : Node} (before after : List Node)
    (ring : Ring null next prev root (before ++ t :: after))
    (present : ∀ x ∈ before ++ t :: after, x ≠ null) :
    Ring null next prev t (t :: after ++ before) := by
  induction before generalizing root after with
  | nil =>
      simp only [List.nil_append, List.append_nil] at ring ⊢
      exact ring.1 ▸ ring
  | cons x rest ih =>
      cases rest with
      | nil => exact ring.rotate_one (present t (by simp))
      | cons y rest =>
          have stepped := ring.rotate_one (present y (by simp))
          have moved := @ih y (after ++ [x]) (by simpa using stepped) (by
            intro z member
            apply present z
            simp only [List.cons_append, List.mem_cons, List.mem_append, List.not_mem_nil,
              or_false] at member ⊢
            tauto)
          simpa using moved

theorem Ring.append {root new x : Node} {rest : List Node}
    (ring : Ring null next prev root (x :: rest)) (distinct : (x :: rest).Nodup)
    (fresh : new ∉ x :: rest) (present : new ≠ null) :
    Ring null (Function.update (Function.update next new root) (prev root) new)
      (Function.update (Function.update prev new (prev root)) root new) root (x :: rest ++ [new]) := by
  have pushed := ring.push distinct fresh present
  obtain rfl : root = x := ring.1
  exact pushed.rotate_one ring.2.1

theorem Ring.insert {root t new x : Node} (before after : List Node)
    (ring : Ring null next prev root (x :: before ++ t :: after))
    (distinct : (x :: before ++ t :: after).Nodup) (fresh : new ∉ x :: before ++ t :: after)
    (all_present : ∀ y ∈ x :: before ++ t :: after, y ≠ null) (present : new ≠ null) :
    Ring null (Function.update (Function.update next new t) (prev t) new)
      (Function.update (Function.update prev new (prev t)) t new) root
      (x :: before ++ new :: t :: after) := by
  obtain rfl : root = x := ring.1
  have turned := ring.rotate (root :: before) after all_present
  have same : (t :: after ++ root :: before).Perm (root :: before ++ t :: after) :=
    List.perm_append_comm
  have pushed := turned.push (same.nodup_iff.mpr distinct)
    (fun member => fresh (same.mem_iff.mp member)) present
  have back : ∀ y ∈ new :: t :: after ++ root :: before, y ≠ null := by
    intro y member
    rcases List.mem_cons.mp member with rfl | old
    · exact present
    · exact all_present y (same.mem_iff.mp old)
  have home := pushed.rotate (new :: t :: after) before back
  simpa using home

/-- The other nodes of a ring, from the one behind `t` on. -/
def unlink (t : Node) (nodes : List Node) : List Node :=
  (nodes.dropWhile (· ≠ t)).tail ++ nodes.takeWhile (· ≠ t)

theorem unlink_split {t : Node} {nodes : List Node} (member : t ∈ nodes) :
    ∃ before after, nodes = before ++ t :: after ∧ unlink t nodes = after ++ before := by
  refine ⟨nodes.takeWhile (· ≠ t), (nodes.dropWhile (· ≠ t)).tail, ?_, rfl⟩
  induction nodes with
  | nil => exact nomatch member
  | cons x rest ih =>
      by_cases here : x = t
      · simp [here]
      · have later : t ∈ rest := (List.mem_cons.mp member).resolve_left (Ne.symm here)
        simpa [here] using ih later

theorem unlink_perm {t : Node} {nodes : List Node} (member : t ∈ nodes) :
    (t :: unlink t nodes).Perm nodes := by
  obtain ⟨before, after, split, rest⟩ := unlink_split member
  rw [rest, split, ← List.cons_append]
  exact List.perm_append_comm

theorem Ring.remove {t y : Node} {rest : List Node}
    (ring : Ring null next prev t (t :: y :: rest)) (distinct : (t :: y :: rest).Nodup)
    (present : y ≠ null) :
    next t = y ∧ prev t ≠ t ∧
      Ring null (Function.update next (prev t) (next t)) (Function.update prev (next t) (prev t)) y
        (y :: rest) := by
  obtain ⟨inner, forward, backward⟩ := ring.links
  obtain ⟨⟨first, _⟩, tail⟩ := List.isChain_cons_cons.mp inner
  rw [List.getLast_cons (List.cons_ne_nil _ _)] at forward backward
  obtain ⟨t_fresh, tail_distinct⟩ := List.nodup_cons.mp distinct
  have last_member := List.getLast_mem (List.cons_ne_nil y rest)
  rw [← backward] at forward last_member
  refine ⟨first, fun equal => t_fresh (equal ▸ last_member), ?_⟩
  rw [first]
  apply Ring.of_links present
  · refine tail.imp_of_mem_tail_imp ?_
    rintro a b a_member b_member ⟨a_next, b_prev⟩
    have b_root : b ≠ y := fun equal => (List.nodup_cons.mp tail_distinct).1 (equal ▸ b_member)
    have a_last : a ≠ prev t := by
      rintro rfl
      exact t_fresh (by rw [← forward, a_next]; exact List.mem_of_mem_tail b_member)
    exact ⟨by rw [Function.update_of_ne a_last, a_next], by rw [Function.update_of_ne b_root, b_prev]⟩
  · rw [← backward]
    exact ⟨Function.update_self _ _ _, Function.update_self _ _ _⟩

omit [DecidableEq Node] in
theorem Ring.next_root {root x y : Node} {rest : List Node}
    (ring : Ring null next prev root (x :: y :: rest)) : next root = y := by
  rw [ring.1]
  exact (List.isChain_cons_cons.mp ring.2.2).1.1

omit [DecidableEq Node] in
theorem path_unique {x root : Node} {first second : List Node}
    (one : List.IsChain (Linked next prev) (x :: first ++ [root]))
    (other : List.IsChain (Linked next prev) (x :: second ++ [root]))
    (away : root ∉ first) (away' : root ∉ second) : first = second := by
  induction first generalizing x second with
  | nil =>
      cases second with
      | nil => rfl
      | cons y rest =>
          have back := (List.isChain_cons_cons.mp one).1.1
          have ahead := (List.isChain_cons_cons.mp other).1.1
          exact absurd (back.symm.trans ahead ▸ List.mem_cons_self) away'
  | cons y rest ih =>
      have ahead := List.isChain_cons_cons.mp one
      cases second with
      | nil =>
          have back := (List.isChain_cons_cons.mp other).1.1
          exact absurd (back.symm.trans ahead.1.1 ▸ List.mem_cons_self) away
      | cons z rest' =>
          have ahead' := List.isChain_cons_cons.mp other
          obtain rfl : y = z := ahead.1.1.symm.trans ahead'.1.1
          rw [ih ahead.2 ahead'.2 (fun member => away (List.mem_cons_of_mem _ member))
            (fun member => away' (List.mem_cons_of_mem _ member))]

omit [DecidableEq Node] in
theorem Ring.unique {root : Node} {first second : List Node}
    (one : Ring null next prev root first) (other : Ring null next prev root second)
    (distinct : first.Nodup) (distinct' : second.Nodup) : first = second := by
  cases first with
  | nil => exact (other.null_iff.mp one).symm
  | cons x rest =>
      cases second with
      | nil => exact one.null_iff.mp other
      | cons y rest' =>
          obtain rfl : x = y := one.1.symm.trans other.1
          rw [path_unique one.2.2 other.2.2 (List.nodup_cons.mp distinct).1
            (List.nodup_cons.mp distinct').1]

omit [DecidableEq Node] in
theorem Ring.turn {root x : Node} {rest : List Node}
    (ring : Ring null next prev root (x :: rest)) (present : ∀ y ∈ rest, y ≠ null) :
    Ring null next prev (next root) (rest ++ [x]) := by
  cases rest with
  | nil =>
      have single := ring.links.2.1
      rw [List.getLast_singleton, ← ring.1] at single
      rwa [single]
  | cons y more =>
      rw [ring.next_root]
      exact ring.rotate_one (present y List.mem_cons_self)

/-! What a walk along `next` meets. -/

inductive Met (null : Node) (next : Node → Node) : Node → Node → Prop where
  | here {x : Node} : x ≠ null → Met null next x x
  | later {x y : Node} : x ≠ null → Met null next (next x) y → Met null next x y

omit [DecidableEq Node] in
theorem Chain.met_iff {root t : Node} {nodes : List Node} (chain : Chain null next root nodes) :
    Met null next root t ↔ t ∈ nodes := by
  constructor
  · intro met
    induction met generalizing nodes with
    | here present =>
        cases nodes with
        | nil => exact absurd chain present
        | cons x rest => simp [chain.1]
    | later present _ ih =>
        cases nodes with
        | nil => exact absurd chain present
        | cons x rest =>
            obtain ⟨rfl, _, tail⟩ := chain
            exact List.mem_cons_of_mem _ (ih tail)
  · intro member
    induction nodes generalizing root with
    | nil => exact nomatch member
    | cons x rest ih =>
        obtain ⟨rfl, present, tail⟩ := chain
        rcases List.mem_cons.mp member with rfl | behind
        · exact .here present
        · exact .later present (ih tail behind)

omit [DecidableEq Node] in
theorem Ring.next_mem {root x : Node} {nodes : List Node} (ring : Ring null next prev root nodes)
    (member : x ∈ nodes) : next x ∈ nodes := by
  cases nodes with
  | nil => exact nomatch member
  | cons first rest =>
      obtain ⟨before, after, split⟩ := List.append_of_mem member
      have chain := ring.2.2
      rw [split, List.append_assoc, List.cons_append] at chain
      have from_here := (List.isChain_append.mp chain).2.1
      cases after with
      | nil =>
          rw [(List.isChain_cons_cons.mp from_here).1.1]
          exact List.mem_cons_self
      | cons y more =>
          rw [(List.isChain_cons_cons.mp from_here).1.1, split]
          simp

omit [DecidableEq Node] in
theorem Ring.inverse {root x : Node} {nodes : List Node} (ring : Ring null next prev root nodes)
    (member : x ∈ nodes) : prev (next x) = x ∧ next (prev x) = x := by
  cases nodes with
  | nil => exact nomatch member
  | cons first rest =>
      obtain ⟨before, after, split⟩ := List.append_of_mem member
      obtain ⟨before', after', split'⟩ : ∃ before after, rest ++ [first] = before ++ x :: after := by
        apply List.append_of_mem
        rcases List.mem_cons.mp member with rfl | behind
        · exact List.mem_append_right _ (List.mem_singleton_self _)
        · exact List.mem_append_left _ behind
      constructor
      · have chain := ring.2.2
        rw [split, List.append_assoc, List.cons_append] at chain
        have from_here := (List.isChain_append.mp chain).2.1
        cases after with
        | nil =>
            obtain ⟨forward, backward⟩ := (List.isChain_cons_cons.mp from_here).1
            rw [forward, backward]
        | cons y more =>
            obtain ⟨forward, backward⟩ := (List.isChain_cons_cons.mp from_here).1
            rw [forward, backward]
      · have chain := ring.2.2
        rw [List.cons_append, split', ← List.cons_append] at chain
        obtain ⟨_, _, across⟩ := List.isChain_append.mp chain
        obtain ⟨forward, backward⟩ :=
          across _ (List.getLast?_eq_some_getLast (List.cons_ne_nil _ _)) x rfl
        rw [backward, forward]

omit [DecidableEq Node] in
theorem Ring.met_iff {root t : Node} {nodes : List Node} (ring : Ring null next prev root nodes)
    (all_present : ∀ x ∈ nodes, x ≠ null) : Met null next root t ↔ t ∈ nodes := by
  have closed (start : Node) (met : Met null next start t) (inside : start ∈ nodes) :
      t ∈ nodes := by
    induction met with
    | here _ => exact inside
    | later _ _ ih => exact ih (ring.next_mem inside)
  constructor
  · intro met
    refine closed root met ?_
    cases nodes with
    | nil =>
        have absent : root = null := ring
        cases met with
        | here present => exact absurd absent present
        | later present _ => exact absurd absent present
    | cons x rest => simp [ring.1]
  · intro member
    cases nodes with
    | nil => exact nomatch member
    | cons x rest =>
        rw [ring.1]
        have inner := ring.links.1
        clear ring closed
        induction rest generalizing x with
        | nil =>
            rw [List.mem_singleton.mp member]
            exact .here (all_present x (by simp))
        | cons y more ih =>
            obtain ⟨link, tail⟩ := List.isChain_cons_cons.mp inner
            have present := all_present x (by simp)
            rcases List.mem_cons.mp member with rfl | behind
            · exact .here present
            · refine .later present ?_
              rw [link.1]
              exact ih y (fun z inside => all_present z (List.mem_cons_of_mem _ inside)) behind tail

end MulticoreRtos.LinkedList
