import MulticoreRtos.Transition
import Mathlib.Data.Set.Insert
import Mathlib.Logic.Function.Basic

/-!
Spinlocks under interrupts, on any number of cores. A program takes and releases
locks, masks interrupts, asks about data and calls functions by name; `user` is
code that may call any callable function, any number of times. A handler runs
on top of the context it interrupts, and a switch, which is pended like PendSV,
puts the context of another thread on the core. A lock that is taken by its own
holder never becomes free: `Safe` is a condition on one function body at a time
that rules it out in every run.
-/

namespace MulticoreRtos.LockDiscipline

/-- `abandon` is a `ret` that leaves a lock of its function held. -/
inductive Prog (Lock Fn Ask Effect : Type) where
  | ret (answer : Bool)
  | abandon (answer : Bool)
  | lock (l : Lock) (next : Prog Lock Fn Ask Effect)
  | unlock (l : Lock) (next : Prog Lock Fn Ask Effect)
  | readMask (next : Bool → Prog Lock Fn Ask Effect)
  | setMask (mask : Bool) (next : Prog Lock Fn Ask Effect)
  | ask (q : Ask) (next : Bool → Prog Lock Fn Ask Effect)
  | effect (e : Effect) (next : Prog Lock Fn Ask Effect)
  | pend (next : Prog Lock Fn Ask Effect)
  | call (f : Fn) (next : Bool → Prog Lock Fn Ask Effect)
  | user (next : Prog Lock Fn Ask Effect)
  | launch

structure Context (Lock Fn Ask Effect : Type) where
  now : Prog Lock Fn Ask Effect
  frames : List (Bool → Prog Lock Fn Ask Effect)

/-- `interrupted` is the context below the handler that runs; a core is `booting`
until it has launched its first thread. -/
structure CoreState (Lock Fn Ask Effect Thread : Type) where
  context : Context Lock Fn Ask Effect
  mask : Bool
  booting : Bool
  interrupted : Option (Context Lock Fn Ask Effect)
  thread : Thread
  pending : Option Thread

structure State (Core Lock Fn Ask Effect Thread Store : Type) where
  -- the hardware keeps whether a lock is taken; by whom is for the proofs
  owner : Lock → Option Core
  store : Store
  core : Core → CoreState Lock Fn Ask Effect Thread
  saved : Thread → Context Lock Fn Ask Effect

/-- A question that `read` does not answer has the answer the run gives it. -/
structure Code (Lock Fn Ask Effect Store Handler : Type) where
  body : Fn → Prog Lock Fn Ask Effect
  handler : Handler → Prog Lock Fn Ask Effect
  callable : Fn → Bool
  read : Store → Ask → Option Bool
  write : Store → Effect → Store

inductive Act (Core Fn Thread Handler : Type) where
  | run (c : Core) (answer : Bool) (chosen : Thread)
  | enter (c : Core) (f : Fn)
  | leave (c : Core)
  | interrupt (c : Core) (handler : Handler)
  | switch (c : Core)

section Machine

variable {Core Lock Fn Ask Effect Thread Store Handler : Type}

def Prog.wants : Prog Lock Fn Ask Effect → Option Lock
  | .lock l _ => some l
  | _ => none

def CoreState.shielded (core : CoreState Lock Fn Ask Effect Thread) : Bool :=
  core.interrupted.isSome || core.booting

def CoreState.goto (core : CoreState Lock Fn Ask Effect Thread)
    (now : Prog Lock Fn Ask Effect) : CoreState Lock Fn Ask Effect Thread :=
  { core with context := { core.context with now } }

def CoreState.invoke (core : CoreState Lock Fn Ask Effect Thread)
    (now : Prog Lock Fn Ask Effect) (next : Bool → Prog Lock Fn Ask Effect) :
    CoreState Lock Fn Ask Effect Thread :=
  { core with context := ⟨now, next :: core.context.frames⟩ }

def CoreState.back (core : CoreState Lock Fn Ask Effect Thread) (answer : Bool) :
    Option (CoreState Lock Fn Ask Effect Thread) :=
  match core.context.frames with
  | next :: rest => some { core with context := ⟨next answer, rest⟩ }
  | [] => core.interrupted.map fun context => { core with context, interrupted := none }

def held (owner : Lock → Option Core) (c : Core) : Set Lock :=
  { l | owner l = some c }

def NoSelfDeadlock (s : State Core Lock Fn Ask Effect Thread Store) : Prop :=
  ∀ c l, (s.core c).context.now.wants = some l → s.owner l ≠ some c

variable [DecidableEq Core]

instance (owner : Lock → Option Core) (c : Core) : DecidablePred (· ∈ held owner c) :=
  fun l => inferInstanceAs (Decidable (owner l = some c))

def State.put (s : State Core Lock Fn Ask Effect Thread Store) (c : Core)
    (core : CoreState Lock Fn Ask Effect Thread) : State Core Lock Fn Ask Effect Thread Store :=
  { s with core := Function.update s.core c core }

variable [DecidableEq Lock]

def run (code : Code Lock Fn Ask Effect Store Handler)
    (s : State Core Lock Fn Ask Effect Thread Store) (c : Core) (answer : Bool)
    (chosen : Thread) : Option (State Core Lock Fn Ask Effect Thread Store) :=
  let core := s.core c
  match core.context.now with
  | .ret answer | .abandon answer => (core.back answer).map (s.put c)
  | .lock l next =>
      if s.owner l = none then
        some ({ s with owner := Function.update s.owner l (some c) }.put c (core.goto next))
      else none
  | .unlock l next =>
      some ({ s with owner := Function.update s.owner l none }.put c (core.goto next))
  | .readMask next => some (s.put c (core.goto (next core.mask)))
  | .setMask mask next => some (s.put c { core.goto next with mask })
  | .ask q next => some (s.put c (core.goto (next ((code.read s.store q).getD answer))))
  | .effect e next => some ({ s with store := code.write s.store e }.put c (core.goto next))
  | .pend next => some (s.put c { core.goto next with pending := some chosen })
  | .call f next => some (s.put c (core.invoke (code.body f) next))
  | .user _ => none
  | .launch =>
      some (s.put c { core with
        context := s.saved chosen
        mask := false
        booting := false
        interrupted := none
        thread := chosen })

variable [DecidableEq Thread]

def step (code : Code Lock Fn Ask Effect Store Handler)
    (s : State Core Lock Fn Ask Effect Thread Store) :
    Act Core Fn Thread Handler → Option (State Core Lock Fn Ask Effect Thread Store)
  | .run c answer chosen => run code s c answer chosen
  | .enter c f =>
      match (s.core c).context.now with
      | .user next =>
          if code.callable f = true then
            some (s.put c ((s.core c).invoke (code.body f) fun _ => .user next))
          else none
      | _ => none
  | .leave c =>
      match (s.core c).context.now with
      | .user next => some (s.put c ((s.core c).goto next))
      | _ => none
  | .interrupt c handler =>
      let core := s.core c
      if core.mask = false ∧ core.interrupted = none then
        some (s.put c { core with
          context := ⟨code.handler handler, []⟩
          interrupted := some core.context })
      else none
  | .switch c =>
      let core := s.core c
      match core.pending with
      | some next =>
          if core.mask = false ∧ core.interrupted = none then
            let saved := Function.update s.saved core.thread core.context
            some ({ s with saved }.put c { core with
              context := saved next
              thread := next
              pending := none })
          else none
      | none => none

end Machine

section Contracts

variable {Core Lock Fn Ask Effect Thread Store Handler : Type}

/-- `pre f shielded locks mask`: `f` may be called. `permits` and `allows` are what
a run must keep to: the answers to questions and the calls of user code. -/
structure Contract (Lock Fn Ask : Type) where
  pre : Fn → Bool → Set Lock → Bool → Prop
  returns : Fn → Prop
  permits : Ask → Set Lock → Bool → Prop
  allows : Bool → Set Lock → Fn → Prop

def Calm (shielded mask : Bool) (locks : Set Lock) : Prop :=
  shielded = true ∨ mask = true ∨ locks = ∅

/-- Every `lock` takes a lock not held, every `unlock` releases one held, and no
lock is held while the core can be interrupted. `post` is about the return. -/
def Safe (callable : Fn → Bool) (contract : Contract Lock Fn Ask) (shielded : Bool)
    (post : Set Lock → Bool → Bool → Prop) :
    Prog Lock Fn Ask Effect → Set Lock → Bool → Prop
  | .ret answer, locks, mask => post locks mask answer
  | .abandon _, _, _ => True
  | .lock l next, locks, mask => l ∉ locks ∧ Calm shielded mask (insert l locks) ∧
      Safe callable contract shielded post next (insert l locks) mask
  | .unlock l next, locks, mask => l ∈ locks ∧
      Safe callable contract shielded post next (locks \ {l}) mask
  | .readMask next, locks, mask => Safe callable contract shielded post (next mask) locks mask
  | .setMask value next, locks, _ => Calm shielded value locks ∧
      Safe callable contract shielded post next locks value
  | .ask q next, locks, mask => ∀ answer, contract.permits q locks answer →
      Safe callable contract shielded post (next answer) locks mask
  | .effect _ next, locks, mask => Safe callable contract shielded post next locks mask
  | .pend next, locks, mask => Safe callable contract shielded post next locks mask
  | .call f next, locks, mask => contract.pre f shielded locks mask ∧
      (contract.returns f → ∀ answer,
        Safe callable contract shielded post (next answer) locks mask)
  | .user next, locks, mask =>
      (∀ f, callable f = true → contract.allows shielded locks f →
        contract.pre f shielded locks mask ∧ contract.returns f) ∧
      Safe callable contract shielded post next locks mask
  | .launch, locks, _ => locks = ∅

def FramesOk (callable : Fn → Bool) (contract : Contract Lock Fn Ask) (shielded : Bool) :
    List (Bool → Prog Lock Fn Ask Effect) → Set Lock → Bool → Bool → Prop
  | [], locks, mask, _ => shielded = true → locks = ∅ ∧ mask = false
  | next :: rest, locks, mask, answer =>
      Safe callable contract shielded (FramesOk callable contract shielded rest) (next answer)
        locks mask

def ContextOk (callable : Fn → Bool) (contract : Contract Lock Fn Ask) (shielded : Bool)
    (locks : Set Lock) (mask : Bool) (context : Context Lock Fn Ask Effect) : Prop :=
  Safe callable contract shielded (FramesOk callable contract shielded context.frames)
    context.now locks mask

structure Verified (code : Code Lock Fn Ask Effect Store Handler)
    (contract : Contract Lock Fn Ask) : Prop where
  body : ∀ f shielded locks mask, contract.pre f shielded locks mask → Calm shielded mask locks →
    Safe code.callable contract shielded
      (fun locks' mask' _ => contract.returns f ∧ locks' = locks ∧ mask' = mask)
      (code.body f) locks mask
  handler : ∀ handler,
    Safe code.callable contract true (fun locks mask _ => locks = ∅ ∧ mask = false)
      (code.handler handler) ∅ false

/-- No return leaves a lock held, and no interrupt comes before the first thread. -/
def Guard (code : Code Lock Fn Ask Effect Store Handler) (contract : Contract Lock Fn Ask)
    (s : State Core Lock Fn Ask Effect Thread Store) : Act Core Fn Thread Handler → Prop
  | .run c answer _ =>
      match (s.core c).context.now with
      | .ask q _ => contract.permits q (held s.owner c) ((code.read s.store q).getD answer)
      | .abandon _ => False
      | _ => True
  | .enter c f => contract.allows (s.core c).shielded (held s.owner c) f
  | .leave _ => True
  | .interrupt c _ | .switch c => (s.core c).booting = false

structure CoreOk (callable : Fn → Bool) (contract : Contract Lock Fn Ask) (locks : Set Lock)
    (core : CoreState Lock Fn Ask Effect Thread) : Prop where
  calm : Calm core.shielded core.mask locks
  context : ContextOk callable contract core.shielded locks core.mask core.context
  interrupted : ∀ below ∈ core.interrupted,
    core.booting = false ∧ ContextOk callable contract false ∅ false below

structure Inv (code : Code Lock Fn Ask Effect Store Handler) (contract : Contract Lock Fn Ask)
    (s : State Core Lock Fn Ask Effect Thread Store) : Prop where
  core : ∀ c, CoreOk code.callable contract (held s.owner c) (s.core c)
  saved : ∀ t, ContextOk code.callable contract false ∅ false (s.saved t)

end Contracts

section Soundness

variable {Core Lock Fn Ask Effect Thread Store Handler : Type}
  {code : Code Lock Fn Ask Effect Store Handler} {contract : Contract Lock Fn Ask}
  {callable : Fn → Bool} {shielded mask : Bool} {locks : Set Lock}

theorem Safe.weaken {strong weak : Set Lock → Bool → Bool → Prop}
    (implied : ∀ locks mask answer, strong locks mask answer → weak locks mask answer)
    {prog : Prog Lock Fn Ask Effect}
    (safe : Safe callable contract shielded strong prog locks mask) :
    Safe callable contract shielded weak prog locks mask := by
  induction prog generalizing locks mask with
  | ret answer => exact implied _ _ _ safe
  | abandon answer => trivial
  | lock l next ih => exact ⟨safe.1, safe.2.1, ih safe.2.2⟩
  | unlock l next ih => exact ⟨safe.1, ih safe.2⟩
  | readMask next ih => exact ih _ safe
  | setMask value next ih => exact ⟨safe.1, ih safe.2⟩
  | ask q next ih => exact fun answer permitted => ih answer (safe answer permitted)
  | effect e next ih => exact ih safe
  | pend next ih => exact ih safe
  | call f next ih => exact ⟨safe.1, fun returns answer => ih answer (safe.2 returns answer)⟩
  | user next ih => exact ⟨safe.1, ih safe.2⟩
  | launch => exact safe

theorem Verified.invoked (verified : Verified code contract) {f : Fn}
    {next : Bool → Prog Lock Fn Ask Effect} {frames : List (Bool → Prog Lock Fn Ask Effect)}
    (calm : Calm shielded mask locks) (pre : contract.pre f shielded locks mask)
    (after : contract.returns f → ∀ answer, Safe code.callable contract shielded
      (FramesOk code.callable contract shielded frames) (next answer) locks mask) :
    ContextOk code.callable contract shielded locks mask ⟨code.body f, next :: frames⟩ := by
  refine (verified.body f shielded locks mask pre calm).weaken ?_
  rintro _ _ answer ⟨returns, rfl, rfl⟩
  exact after returns answer

theorem CoreOk.quiet {core : CoreState Lock Fn Ask Effect Thread}
    (ok : CoreOk callable contract locks core) (unmasked : core.mask = false)
    (unshielded : core.shielded = false) : locks = ∅ := by
  simpa [Calm, unmasked, unshielded] using ok.calm

section Owners

variable [DecidableEq Lock] {owner : Lock → Option Core} {c other : Core} {l : Lock}

theorem held_taken : held (Function.update owner l (some c)) c = insert l (held owner c) := by
  ext m
  by_cases same : m = l <;> simp [held, same]

theorem held_taken_ne (unowned : owner l = none) (distinct : other ≠ c) :
    held (Function.update owner l (some c)) other = held owner other := by
  ext m
  by_cases same : m = l
  · simp [held, same, unowned, distinct.symm]
  · simp [held, same]

theorem held_released : held (Function.update owner l none) c = held owner c \ {l} := by
  ext m
  by_cases same : m = l <;> simp [held, same]

theorem held_released_ne (owned : l ∈ held owner c) (distinct : other ≠ c) :
    held (Function.update owner l none) other = held owner other := by
  have owned : owner l = some c := owned
  ext m
  by_cases same : m = l
  · simp [held, same, owned, distinct.symm]
  · simp [held, same]

end Owners

variable [DecidableEq Core] {s s' : State Core Lock Fn Ask Effect Thread Store} {c : Core}

theorem Inv.moved (inv : Inv code contract s) {owner : Lock → Option Core} {store : Store}
    {core : CoreState Lock Fn Ask Effect Thread}
    (others : ∀ other, other ≠ c → held owner other = held s.owner other)
    (ok : CoreOk code.callable contract (held owner c) core) :
    Inv code contract ({ s with owner, store }.put c core) := by
  constructor
  · intro other
    by_cases own : other = c
    · subst own
      simpa [State.put] using ok
    · have kept := inv.core other
      rw [← others other own] at kept
      simpa [State.put, own] using kept
  · exact inv.saved

theorem Inv.kept (inv : Inv code contract s) {core : CoreState Lock Fn Ask Effect Thread}
    (ok : CoreOk code.callable contract (held s.owner c) core) :
    Inv code contract (s.put c core) :=
  inv.moved (fun _ _ => rfl) ok

theorem CoreOk.goto {core : CoreState Lock Fn Ask Effect Thread} {mask : Bool}
    {now : Prog Lock Fn Ask Effect} {pending : Option Thread} {locks' : Set Lock}
    (ok : CoreOk callable contract locks core)
    (calm : Calm core.shielded mask locks')
    (safe : ContextOk callable contract core.shielded locks' mask ⟨now, core.context.frames⟩) :
    CoreOk callable contract locks' { core.goto now with mask, pending } :=
  ⟨calm, safe, ok.interrupted⟩

theorem CoreOk.back {core core' : CoreState Lock Fn Ask Effect Thread} {answer : Bool}
    (ok : CoreOk callable contract locks core)
    (safe : FramesOk callable contract core.shielded core.context.frames locks core.mask answer)
    (returned : core.back answer = some core') : CoreOk callable contract locks core' := by
  unfold CoreState.back at returned
  split at returned
  · next next rest frames =>
      rw [frames] at safe
      cases returned
      exact ⟨ok.calm, safe, ok.interrupted⟩
  · next frames =>
      obtain ⟨below, interrupted, rfl⟩ := Option.map_eq_some_iff.mp returned
      -- the handler ends with no lock and the mask clear, as the context below it expects
      obtain ⟨launched, resumed⟩ := ok.interrupted below interrupted
      have shielded : core.shielded = true := by simp [CoreState.shielded, interrupted]
      rw [frames] at safe
      obtain ⟨rfl, unmasked⟩ := safe shielded
      have unshielded : CoreState.shielded { core with context := below, interrupted := none } =
          false := launched
      refine ⟨.inr (.inr rfl), ?_, by simp⟩
      rw [unshielded, unmasked]
      exact resumed

/-- Where an exception is taken, the context is one that can be resumed by any core. -/
theorem CoreOk.resumable {core : CoreState Lock Fn Ask Effect Thread}
    (ok : CoreOk callable contract locks core) (unmasked : core.mask = false)
    (thread : core.interrupted = none) (launched : core.booting = false) :
    locks = ∅ ∧ ContextOk callable contract false ∅ false core.context := by
  have unshielded : core.shielded = false := by simp [CoreState.shielded, thread, launched]
  have empty := ok.quiet unmasked unshielded
  have resumed := ok.context
  rw [unshielded, empty, unmasked] at resumed
  exact ⟨empty, resumed⟩

theorem interrupt_inv (verified : Verified code contract) (inv : Inv code contract s)
    (handler : Handler) (unmasked : (s.core c).mask = false)
    (thread : (s.core c).interrupted = none) (launched : (s.core c).booting = false) :
    Inv code contract (s.put c { s.core c with
      context := ⟨code.handler handler, []⟩
      interrupted := some (s.core c).context }) := by
  obtain ⟨empty, resumed⟩ := (inv.core c).resumable unmasked thread launched
  refine inv.kept ⟨.inl rfl, ?_, ?_⟩
  · rw [empty]
    change ContextOk _ _ _ _ (s.core c).mask _
    rw [unmasked]
    exact (verified.handler handler).weaken fun _ _ _ finished _ => finished
  · rintro below ⟨⟩
    exact ⟨launched, resumed⟩

theorem switch_inv [DecidableEq Thread] (inv : Inv code contract s) {next : Thread}
    (unmasked : (s.core c).mask = false) (thread : (s.core c).interrupted = none)
    (launched : (s.core c).booting = false) :
    Inv code contract (State.put
      { s with saved := Function.update s.saved (s.core c).thread (s.core c).context } c
      { s.core c with
        context := Function.update s.saved (s.core c).thread (s.core c).context next
        thread := next
        pending := none }) := by
  obtain ⟨empty, resumed⟩ := (inv.core c).resumable unmasked thread launched
  have saved : ∀ t, ContextOk code.callable contract false ∅ false
      (Function.update s.saved (s.core c).thread (s.core c).context t) := by
    intro t
    by_cases own : t = (s.core c).thread
    · subst own
      simpa using resumed
    · simpa [own] using inv.saved t
  have unshielded : (s.core c).shielded = false := by simp [CoreState.shielded, thread, launched]
  have loaded : CoreOk code.callable contract (held s.owner c) { s.core c with
      context := Function.update s.saved (s.core c).thread (s.core c).context next
      thread := next
      pending := none } := by
    refine ⟨(inv.core c).calm, ?_, (inv.core c).interrupted⟩
    change ContextOk _ _ (s.core c).shielded _ (s.core c).mask _
    rw [unshielded, unmasked, empty]
    exact saved next
  exact ⟨(inv.kept loaded).core, saved⟩

variable [DecidableEq Lock]

theorem run_inv (verified : Verified code contract) (inv : Inv code contract s)
    {answer : Bool} {chosen : Thread}
    (guarded : Guard code contract s (.run c answer chosen : Act Core Fn Thread Handler))
    (moved : run code s c answer chosen = some s') : Inv code contract s' := by
  have ok := inv.core c
  have safe : Safe code.callable contract (s.core c).shielded
      (FramesOk code.callable contract (s.core c).shielded (s.core c).context.frames)
      (s.core c).context.now (held s.owner c) (s.core c).mask := ok.context
  cases at_now : (s.core c).context.now <;>
    simp only [run, Guard, at_now] at moved guarded safe
  case ret value =>
      obtain ⟨core, returned, rfl⟩ := Option.map_eq_some_iff.mp moved
      exact inv.kept (ok.back safe returned)
  case lock l next =>
      obtain ⟨_, calm, after⟩ := safe
      by_cases unowned : s.owner l = none
      · simp only [unowned, if_true, Option.some.injEq] at moved
        cases moved
        refine inv.moved (fun other distinct => held_taken_ne unowned distinct) ?_
        rw [held_taken]
        exact ok.goto calm after
      · simp [unowned] at moved
  case unlock l next =>
      obtain ⟨owned, after⟩ := safe
      cases moved
      refine inv.moved (fun other distinct => held_released_ne owned distinct) ?_
      rw [held_released]
      -- a lock was held, so the core is shielded or masked and stays so
      refine ok.goto (ok.calm.imp_right (Or.imp_right fun empty => ?_)) after
      simp [empty] at owned
  case readMask next =>
      cases moved
      exact inv.kept (ok.goto ok.calm safe)
  case setMask value next =>
      cases moved
      exact inv.kept (ok.goto safe.1 safe.2)
  case ask q next =>
      cases moved
      exact inv.kept (ok.goto ok.calm (safe _ guarded))
  case effect e next =>
      cases moved
      exact inv.moved (fun _ _ => rfl) (ok.goto ok.calm safe)
  case pend next =>
      cases moved
      exact inv.kept (ok.goto ok.calm safe)
  case call f next =>
      cases moved
      exact inv.kept ⟨ok.calm, verified.invoked ok.calm safe.1 safe.2, ok.interrupted⟩
  case user next => cases moved
  case launch =>
      cases moved
      refine inv.kept ⟨.inr (.inr safe), ?_, by simp⟩
      have empty : held s.owner c = ∅ := safe
      rw [empty]
      exact inv.saved chosen

variable [DecidableEq Thread]

theorem inv_step (verified : Verified code contract) (inv : Inv code contract s)
    {act : Act Core Fn Thread Handler} (guarded : Guard code contract s act)
    (moved : step code s act = some s') : Inv code contract s' := by
  cases act with
  | run c answer chosen => exact run_inv verified inv guarded moved
  | enter c f =>
      have ok := inv.core c
      simp only [step] at moved
      split at moved
      · next next at_now =>
          have user : ContextOk code.callable contract (s.core c).shielded (held s.owner c)
              (s.core c).mask ⟨.user next, (s.core c).context.frames⟩ := at_now ▸ ok.context
          by_cases callable : code.callable f = true
          · rw [if_pos callable] at moved
            cases moved
            obtain ⟨pre, _⟩ := user.1 f callable guarded
            exact inv.kept
              ⟨ok.calm, verified.invoked ok.calm pre fun _ _ => user, ok.interrupted⟩
          · simp [callable] at moved
      · cases moved
  | leave c =>
      have ok := inv.core c
      simp only [step] at moved
      split at moved
      · next next at_now =>
          have user : ContextOk code.callable contract (s.core c).shielded (held s.owner c)
              (s.core c).mask ⟨.user next, (s.core c).context.frames⟩ := at_now ▸ ok.context
          cases moved
          exact inv.kept (ok.goto ok.calm user.2)
      · cases moved
  | interrupt c handler =>
      simp only [step] at moved
      split at moved
      · next ready =>
          cases moved
          exact interrupt_inv verified inv handler ready.1 ready.2 guarded
      · cases moved
  | switch c =>
      simp only [step] at moved
      split at moved
      · split at moved
        · next ready =>
            cases moved
            exact switch_inv inv ready.1 ready.2 guarded
        · cases moved
      · cases moved

theorem run_invariant (verified : Verified code contract)
    {guard : State Core Lock Fn Ask Effect Thread Store → Act Core Fn Thread Handler → Prop}
    {start : State Core Lock Fn Ask Effect Thread Store → Prop}
    (guarded : ∀ s act, guard s act → Guard code contract s act)
    (begun : ∀ s, start s → Inv code contract s)
    (reached : Transition.Reaches (step code) guard start s) : Inv code contract s :=
  reached.invariant (Inv code contract) begun fun _ _ _ inv allowed moved =>
    inv_step verified inv (guarded _ _ allowed) moved

omit [DecidableEq Core] [DecidableEq Lock] [DecidableEq Thread] in
theorem Inv.no_self_deadlock (inv : Inv code contract s) : NoSelfDeadlock s := by
  intro c l wanted owned
  have safe := (inv.core c).context
  unfold ContextOk at safe
  cases at_now : (s.core c).context.now <;> simp only [at_now, Prog.wants] at wanted safe
  case lock m next =>
    cases wanted
    exact safe.1 owned
  all_goals cases wanted

end Soundness

end MulticoreRtos.LockDiscipline
