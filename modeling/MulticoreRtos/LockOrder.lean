import MulticoreRtos.LockDiscipline
import Mathlib.Logic.Relation

/-!
Ranked locks, on any number of cores. `Ordered` is a condition on one function
body at a time: a lock is only taken above every lock the core holds. A chain of
cores that wait for each other then goes up in rank, whatever the cores do, and
cannot close.
-/

namespace MulticoreRtos.LockOrder

open LockDiscipline

variable {Core Lock Fn Ask Effect Thread Store Handler : Type}

/-- `pre f locks`: `f` may be called with `locks` held. -/
structure Order (Lock Fn : Type) where
  rank : Lock → Nat
  pre : Fn → Set Lock → Prop

def Order.Above (order : Order Lock Fn) (l : Lock) (locks : Set Lock) : Prop :=
  ∀ m ∈ locks, order.rank m < order.rank l

theorem Order.Above.fresh {order : Order Lock Fn} {l : Lock} {locks : Set Lock}
    (above : order.Above l locks) : l ∉ locks :=
  fun owned => lt_irrefl _ (above l owned)

def Ordered (callable : Fn → Bool) (contract : Contract Lock Fn Ask) (order : Order Lock Fn)
    (post : Set Lock → Prop) : Prog Lock Fn Ask Effect → Set Lock → Prop
  | .ret _, locks => post locks
  | .abandon _, _ => True
  | .lock l next, locks =>
      order.Above l locks ∧ Ordered callable contract order post next (insert l locks)
  | .unlock l next, locks => Ordered callable contract order post next (locks \ {l})
  | .readMask next, locks => ∀ mask, Ordered callable contract order post (next mask) locks
  | .setMask _ next, locks => Ordered callable contract order post next locks
  | .ask q next, locks => ∀ answer, contract.permits q locks answer →
      Ordered callable contract order post (next answer) locks
  | .effect _ next, locks => Ordered callable contract order post next locks
  | .pend next, locks => Ordered callable contract order post next locks
  | .call f next, locks => order.pre f locks ∧
      ∀ answer, Ordered callable contract order post (next answer) locks
  | .user next, locks =>
      (∀ f shielded, callable f = true → contract.allows shielded locks f → order.pre f locks) ∧
      Ordered callable contract order post next locks
  | .launch, _ => True

def FramesOrdered (callable : Fn → Bool) (contract : Contract Lock Fn Ask)
    (order : Order Lock Fn) : List (Bool → Prog Lock Fn Ask Effect) → Set Lock → Prop
  | [], locks => locks = ∅
  | next :: rest, locks => ∀ answer,
      Ordered callable contract order (FramesOrdered callable contract order rest) (next answer)
        locks

def ContextOrdered (callable : Fn → Bool) (contract : Contract Lock Fn Ask)
    (order : Order Lock Fn) (locks : Set Lock) (context : Context Lock Fn Ask Effect) : Prop :=
  Ordered callable contract order (FramesOrdered callable contract order context.frames)
    context.now locks

/-- Every function gives back the locks it was called with, and takes its own in order. -/
structure Ranked (code : Code Lock Fn Ask Effect Store Handler) (contract : Contract Lock Fn Ask)
    (order : Order Lock Fn) : Prop where
  body : ∀ f locks, order.pre f locks →
    Ordered code.callable contract order (· = locks) (code.body f) locks
  handler : ∀ handler,
    Ordered code.callable contract order (· = ∅) (code.handler handler) ∅

structure Inv (code : Code Lock Fn Ask Effect Store Handler) (contract : Contract Lock Fn Ask)
    (order : Order Lock Fn) (s : State Core Lock Fn Ask Effect Thread Store) : Prop where
  core : ∀ c, ContextOrdered code.callable contract order (held s.owner c) (s.core c).context
  interrupted : ∀ c, ∀ below ∈ (s.core c).interrupted,
    ContextOrdered code.callable contract order ∅ below
  saved : ∀ t, ContextOrdered code.callable contract order ∅ (s.saved t)

section Soundness

variable {code : Code Lock Fn Ask Effect Store Handler} {contract : Contract Lock Fn Ask}
  {order : Order Lock Fn} {callable : Fn → Bool} {locks : Set Lock}

theorem Ordered.weaken {strong weak : Set Lock → Prop}
    (implied : ∀ locks, strong locks → weak locks) {prog : Prog Lock Fn Ask Effect}
    (ordered : Ordered callable contract order strong prog locks) :
    Ordered callable contract order weak prog locks := by
  induction prog generalizing locks with
  | ret answer => exact implied _ ordered
  | abandon answer => trivial
  | lock l next ih => exact ⟨ordered.1, ih ordered.2⟩
  | unlock l next ih => exact ih ordered
  | readMask next ih => exact fun mask => ih mask (ordered mask)
  | setMask value next ih => exact ih ordered
  | ask q next ih => exact fun answer permitted => ih answer (ordered answer permitted)
  | effect e next ih => exact ih ordered
  | pend next ih => exact ih ordered
  | call f next ih => exact ⟨ordered.1, fun answer => ih answer (ordered.2 answer)⟩
  | user next ih => exact ⟨ordered.1, ih ordered.2⟩
  | launch => trivial

theorem Ranked.invoked (ranked : Ranked code contract order) {f : Fn}
    {next : Bool → Prog Lock Fn Ask Effect} {frames : List (Bool → Prog Lock Fn Ask Effect)}
    (ready : order.pre f locks)
    (after : ∀ answer, Ordered code.callable contract order
      (FramesOrdered code.callable contract order frames) (next answer) locks) :
    ContextOrdered code.callable contract order locks ⟨code.body f, next :: frames⟩ := by
  apply (ranked.body f locks ready).weaken
  rintro _ rfl
  exact after

variable [DecidableEq Core] {s s' : State Core Lock Fn Ask Effect Thread Store} {c : Core}

theorem Inv.moved (inv : Inv code contract order s) {owner : Lock → Option Core} {store : Store}
    {core : CoreState Lock Fn Ask Effect Thread}
    (others : ∀ other, other ≠ c → held owner other = held s.owner other)
    (own : ContextOrdered code.callable contract order (held owner c) core.context)
    (below : ∀ context ∈ core.interrupted, ContextOrdered code.callable contract order ∅ context) :
    Inv code contract order ({ s with owner, store }.put c core) := by
  constructor
  · intro other
    by_cases same : other = c
    · subst same
      simpa [State.put] using own
    · have kept := inv.core other
      rw [← others other same] at kept
      simpa [State.put, same] using kept
  · intro other context
    by_cases same : other = c
    · subst same
      simpa [State.put] using below context
    · simpa [State.put, same] using inv.interrupted other context
  · exact inv.saved

theorem Inv.kept (inv : Inv code contract order s) {core : CoreState Lock Fn Ask Effect Thread}
    (own : ContextOrdered code.callable contract order (held s.owner c) core.context)
    (below : ∀ context ∈ core.interrupted, ContextOrdered code.callable contract order ∅ context) :
    Inv code contract order (s.put c core) :=
  inv.moved (fun _ _ => rfl) own below

theorem back_ordered (inv : Inv code contract order s) {answer : Bool}
    {core : CoreState Lock Fn Ask Effect Thread}
    (frames : FramesOrdered code.callable contract order (s.core c).context.frames
      (held s.owner c))
    (returned : (s.core c).back answer = some core) : Inv code contract order (s.put c core) := by
  unfold CoreState.back at returned
  split at returned
  · next next rest on_top =>
      rw [on_top] at frames
      cases returned
      exact inv.kept (frames answer) (inv.interrupted c)
  · next at_end =>
      obtain ⟨below, interrupted, rfl⟩ := Option.map_eq_some_iff.mp returned
      rw [at_end] at frames
      apply inv.kept
      · have empty : held s.owner c = ∅ := frames
        rw [empty]
        exact inv.interrupted c below interrupted
      · simp

theorem switch_ordered [DecidableEq Thread] (inv : Inv code contract order s) {next : Thread}
    (empty : held s.owner c = ∅) :
    Inv code contract order (State.put
      { s with saved := Function.update s.saved (s.core c).thread (s.core c).context } c
      { s.core c with
        context := Function.update s.saved (s.core c).thread (s.core c).context next
        thread := next
        pending := none }) := by
  have own := inv.core c
  rw [empty] at own
  have saved : ∀ t, ContextOrdered code.callable contract order ∅
      (Function.update s.saved (s.core c).thread (s.core c).context t) := by
    intro t
    by_cases same : t = (s.core c).thread
    · subst same
      simpa using own
    · simpa [same] using inv.saved t
  have loaded : Inv code contract order (s.put c { s.core c with
      context := Function.update s.saved (s.core c).thread (s.core c).context next
      thread := next
      pending := none }) := by
    apply inv.kept
    · rw [empty]
      exact saved next
    · exact inv.interrupted c
  exact ⟨loaded.core, loaded.interrupted, saved⟩

variable [DecidableEq Lock]

theorem run_ordered (ranked : Ranked code contract order) (safe : LockDiscipline.Inv code contract s)
    (inv : Inv code contract order s) {answer : Bool} {chosen : Thread}
    (guarded : Guard code contract s (.run c answer chosen : Act Core Fn Thread Handler))
    (moved : run code s c answer chosen = some s') : Inv code contract order s' := by
  have sound := (safe.core c).context
  have ordered := inv.core c
  have below := inv.interrupted c
  unfold ContextOk at sound
  unfold ContextOrdered at ordered
  cases at_now : (s.core c).context.now <;>
    simp only [run, Guard, at_now] at moved guarded sound ordered
  case ret value =>
      obtain ⟨core, returned, rfl⟩ := Option.map_eq_some_iff.mp moved
      exact back_ordered inv ordered returned
  case lock l next =>
      by_cases unowned : s.owner l = none
      · simp only [unowned, if_true, Option.some.injEq] at moved
        cases moved
        refine inv.moved (fun other distinct => held_taken_ne unowned distinct) ?_ below
        rw [held_taken]
        exact ordered.2
      · simp [unowned] at moved
  case unlock l next =>
      cases moved
      refine inv.moved (fun other distinct => held_released_ne sound.1 distinct) ?_ below
      rw [held_released]
      exact ordered
  case readMask next =>
      cases moved
      exact inv.kept (ordered _) below
  case setMask value next =>
      cases moved
      exact inv.kept ordered below
  case ask q next =>
      cases moved
      exact inv.kept (ordered _ guarded) below
  case effect e next =>
      cases moved
      exact inv.moved (fun _ _ => rfl) ordered below
  case pend next =>
      cases moved
      exact inv.kept ordered below
  case call f next =>
      cases moved
      exact inv.kept (ranked.invoked ordered.1 ordered.2) below
  case user next => cases moved
  case launch =>
      cases moved
      apply inv.kept
      · have empty : held s.owner c = ∅ := sound
        rw [empty]
        exact inv.saved chosen
      · simp

variable [DecidableEq Thread]

theorem step_ordered (ranked : Ranked code contract order)
    (safe : LockDiscipline.Inv code contract s) (inv : Inv code contract order s)
    {act : Act Core Fn Thread Handler} (guarded : Guard code contract s act)
    (moved : step code s act = some s') : Inv code contract order s' := by
  cases act with
  | run c answer chosen => exact run_ordered ranked safe inv guarded moved
  | enter c f =>
      simp only [step] at moved
      split at moved
      · next next at_now =>
          have user : ContextOrdered code.callable contract order (held s.owner c)
              ⟨.user next, (s.core c).context.frames⟩ := at_now ▸ inv.core c
          by_cases callable : code.callable f = true
          · rw [if_pos callable] at moved
            cases moved
            exact inv.kept (ranked.invoked (user.1 f _ callable guarded) fun _ => user)
              (inv.interrupted c)
          · simp [callable] at moved
      · cases moved
  | leave c =>
      simp only [step] at moved
      split at moved
      · next next at_now =>
          have user : ContextOrdered code.callable contract order (held s.owner c)
              ⟨.user next, (s.core c).context.frames⟩ := at_now ▸ inv.core c
          cases moved
          exact inv.kept user.2 (inv.interrupted c)
      · cases moved
  | interrupt c handler =>
      simp only [step] at moved
      split at moved
      · next ready =>
          obtain ⟨empty, _⟩ := (safe.core c).resumable ready.1 ready.2 guarded
          have own := inv.core c
          rw [empty] at own
          cases moved
          apply inv.kept
          · rw [empty]
            exact (ranked.handler handler).weaken fun _ finished => finished
          · rintro below ⟨⟩
            exact own
      · cases moved
  | switch c =>
      simp only [step] at moved
      split at moved
      · split at moved
        · next ready =>
            obtain ⟨empty, _⟩ := (safe.core c).resumable ready.1 ready.2 guarded
            cases moved
            exact switch_ordered inv empty
        · cases moved
      · cases moved

theorem run_invariant (verified : Verified code contract) (ranked : Ranked code contract order)
    {guard : State Core Lock Fn Ask Effect Thread Store → Act Core Fn Thread Handler → Prop}
    {start : State Core Lock Fn Ask Effect Thread Store → Prop}
    (guarded : ∀ s act, guard s act → Guard code contract s act)
    (safe : ∀ s, start s → LockDiscipline.Inv code contract s)
    (begun : ∀ s, start s → Inv code contract order s)
    (reached : Transition.Reaches (step code) guard start s) : Inv code contract order s := by
  have both := reached.invariant
    (fun s => LockDiscipline.Inv code contract s ∧ Inv code contract order s)
    (fun s start => ⟨safe s start, begun s start⟩)
    fun _ _ _ inv allowed moved =>
      ⟨inv_step verified inv.1 (guarded _ _ allowed) moved,
        step_ordered ranked inv.1 inv.2 (guarded _ _ allowed) moved⟩
  exact both.2

end Soundness

section Waiting

variable {code : Code Lock Fn Ask Effect Store Handler} {contract : Contract Lock Fn Ask}
  {order : Order Lock Fn} {s : State Core Lock Fn Ask Effect Thread Store} {c d : Core}

def WaitsFor (s : State Core Lock Fn Ask Effect Thread Store) (c d : Core) : Prop :=
  ∃ l, (s.core c).context.now.wants = some l ∧ s.owner l = some d

theorem Inv.above (inv : Inv code contract order s) {l : Lock}
    (wanted : (s.core c).context.now.wants = some l) : order.Above l (held s.owner c) := by
  have ordered := inv.core c
  unfold ContextOrdered at ordered
  cases at_now : (s.core c).context.now <;> simp only [at_now, Prog.wants] at wanted ordered
  case lock m next =>
    cases wanted
    exact ordered.1
  all_goals cases wanted

/-- Along a chain of waiting cores the rank of the lock waited for goes up. -/
theorem Inv.climbs (inv : Inv code contract order s)
    (chain : Relation.TransGen (WaitsFor s) c d) :
    ∃ l, (s.core c).context.now.wants = some l ∧
      ∀ m, (s.core d).context.now.wants = some m → order.rank l < order.rank m := by
  induction chain with
  | single waits =>
      obtain ⟨l, wanted, owned⟩ := waits
      exact ⟨l, wanted, fun m next => inv.above next l owned⟩
  | tail _ waits ih =>
      obtain ⟨l, wanted, lower⟩ := ih
      obtain ⟨k, between, owned⟩ := waits
      refine ⟨l, wanted, fun m next => ?_⟩
      calc order.rank l < order.rank k := lower k between
        _ < order.rank m := inv.above next k owned

theorem Inv.no_deadlock (inv : Inv code contract order s) (c : Core) :
    ¬ Relation.TransGen (WaitsFor s) c c := by
  intro cycle
  obtain ⟨l, wanted, lower⟩ := inv.climbs cycle
  exact lt_irrefl _ (lower l wanted)

end Waiting

end MulticoreRtos.LockOrder
