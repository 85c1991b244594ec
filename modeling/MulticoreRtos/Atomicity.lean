import MulticoreRtos.Transition

/-!
Sections of code under one lock, load by load and store by store. A core runs its
section while other cores take events of their own in between. When such events
touch nothing the section reaches, every run is one of whole sections. Nothing here
depends on what the memory is.
-/

namespace MulticoreRtos.Atomicity

open Transition

/-- Code of one core. Each load and each store of what it reaches is a step of its own. -/
inductive Code (View : Type) (Result : Type) : Type 1 where
  | done (result : Result)
  -- a loop that never ends, or a read outside an array
  | stuck
  | load {Value : Type} (read : View → Value) (rest : Value → Code View Result)
  | store (write : View → View) (rest : Code View Result)

namespace Code
variable {View Result Next Value : Type}

def bind : Code View Result → (Result → Code View Next) → Code View Next
  | .done result, next => next result
  | .stuck, _ => .stuck
  | .load read rest, next => .load read fun value => (rest value).bind next
  | .store write rest, next => .store write (rest.bind next)

instance : Monad (Code View) where
  pure := .done
  bind := .bind

theorem bind_done (code : Code View Result) : code.bind .done = code := by
  induction code with
  | done result => rfl
  | stuck => rfl
  | load read rest ih => exact congrArg (load read) (funext ih)
  | store write rest ih => exact congrArg (store write) ih

theorem bind_bind {Last : Type} (code : Code View Result) (first : Result → Code View Next)
    (second : Next → Code View Last) :
    (code.bind first).bind second = code.bind fun result => (first result).bind second := by
  induction code with
  | done result => rfl
  | stuck => rfl
  | load read rest ih => exact congrArg (load read) (funext ih)
  | store write rest ih => exact congrArg (store write) ih

instance : LawfulMonad (Code View) :=
  LawfulMonad.mk' _ bind_done (fun _ _ => rfl) bind_bind

def run : Code View Result → View → Option (Result × View)
  | .done result, view => some (result, view)
  | .stuck, _ => none
  | .load read rest, view => (rest (read view)).run view
  | .store write rest, view => rest.run (write view)

def read (field : View → Value) : Code View Value := .load field .done

def assign (write : View → View) : Code View Unit := .store write (.done ())

@[simp] theorem run_bind (code : Code View Result) (next : Result → Code View Next) (view : View) :
    (code >>= next).run view = (code.run view).bind fun (result, after) => (next result).run after := by
  induction code generalizing view with
  | done result => rfl
  | stuck => rfl
  | load field rest ih => exact ih (field view) view
  | store write rest ih => exact ih (write view)

@[simp] theorem run_pure (result : Result) (view : View) :
    (pure result : Code View Result).run view = some (result, view) := rfl

@[simp] theorem run_read (field : View → Value) (view : View) :
    (read field).run view = some (field view, view) := rfl

@[simp] theorem run_assign (write : View → View) (view : View) :
    (assign write).run view = some ((), write view) := rfl

def Keeps (field : View → Value) : Code View Result → Prop
  | .done _ => True
  | .stuck => True
  | .load _ rest => ∀ value, (rest value).Keeps field
  | .store write rest => (∀ view, field (write view) = field view) ∧ rest.Keeps field

@[simp] theorem keeps_bind {field : View → Value} {code : Code View Result}
    {next : Result → Code View Next} (kept : code.Keeps field)
    (behind : ∀ result, (next result).Keeps field) : (code >>= next).Keeps field := by
  induction code with
  | done result => exact behind result
  | stuck => trivial
  | load read rest ih => exact fun value => ih value (kept value)
  | store write rest ih => exact ⟨kept.1, ih kept.2⟩

section Keeps
variable {Field : Type} {field : View → Field}

@[simp] theorem keeps_pure (result : Result) : (pure result : Code View Result).Keeps field := trivial

@[simp] theorem keeps_read_bind (value : View → Value) (next : Value → Code View Next) :
    (read value >>= next).Keeps field ↔ ∀ result, (next result).Keeps field := Iff.rfl

@[simp] theorem keeps_assign_bind (write : View → View) (next : Unit → Code View Next) :
    (assign write >>= next).Keeps field ↔
      (∀ view, field (write view) = field view) ∧ (next ()).Keeps field := Iff.rfl

@[simp] theorem keeps_assign (write : View → View) :
    (assign write).Keeps field ↔ ∀ view, field (write view) = field view := and_iff_left trivial

@[simp] theorem keeps_ite {condition : Prop} [Decidable condition] {yes no : Code View Result} :
    (if condition then yes else no).Keeps field ↔
      (condition → yes.Keeps field) ∧ (¬ condition → no.Keeps field) := by
  by_cases this : condition
  · simp [this]
  · simp [this]

end Keeps

theorem run_keeps {field : View → Value} {code : Code View Result} (kept : code.Keeps field)
    {view after : View} {result : Result} (ended : code.run view = some (result, after)) :
    field after = field view := by
  induction code generalizing view with
  | done result =>
      cases ended
      rfl
  | stuck => cases ended
  | load read rest ih => exact ih (read view) (kept (read view)) ended
  | store write rest ih => exact (ih kept.2 ended).trans (kept.1 view)

end Code

/-- Cores with a common memory. Core `c` reaches a part of it, `look c`; a section of
code runs under the lock, with the core's interrupts off; an event is one step of a core
outside every section. -/
structure System (Memory Core View Part Event : Type) where
  look : Core → Memory → View
  write : Core → Memory → View → Memory
  owner : Part → Core
  code : Part → Code View Unit
  enabled : Memory → Part → Prop
  -- what is noted when the lock is given back
  leave : Part → Memory → Memory
  source : Event → Core
  event : Memory → Event → Option Memory

variable {Memory Core View Part Event : Type} [DecidableEq Core]

structure Fine (Memory View Part : Type) : Type 1 where
  memory : Memory
  inside : Option (Part × Code View Unit)

inductive Action (Part Event : Type) where
  | enter (part : Part)
  | next
  | leave
  | event (event : Event)

def Outside (system : System Memory Core View Part Event) (f : Fine Memory View Part) (c : Core) :
    Prop :=
  ∀ part rest, f.inside = some (part, rest) → system.owner part ≠ c

instance (system : System Memory Core View Part Event) (f : Fine Memory View Part) (c : Core) :
    Decidable (Outside system f c) :=
  match inside : f.inside with
  | none => isTrue fun part rest same => by rw [inside] at same; cases same
  | some (part, rest) => decidable_of_iff (system.owner part ≠ c) (by
      constructor
      · intro apart _ _ same
        cases inside.symm.trans same
        exact apart
      · exact fun outside => outside part rest inside)

section Steps
variable (system : System Memory Core View Part Event)
variable [∀ memory part, Decidable (system.enabled memory part)]

def advance (f : Fine Memory View Part) (part : Part) : Code View Unit → Option (Fine Memory View Part)
  | .done _ => none
  | .stuck => none
  | .load read rest =>
      some { f with inside := some (part, rest (read (system.look (system.owner part) f.memory))) }
  | .store write rest =>
      some
        { memory := system.write (system.owner part) f.memory
            (write (system.look (system.owner part) f.memory))
          inside := some (part, rest) }

def step (f : Fine Memory View Part) : Action Part Event → Option (Fine Memory View Part)
  | .enter part =>
      match f.inside with
      | none =>
          if system.enabled f.memory part then some { f with inside := some (part, system.code part) }
          else none
      | some _ => none
  | .next =>
      match f.inside with
      | none => none
      | some (part, rest) => advance system f part rest
  | .leave =>
      match f.inside with
      | some (part, .done _) => some { memory := system.leave part f.memory, inside := none }
      | _ => none
  | .event e =>
      if Outside system f (system.source e) then
        (system.event f.memory e).map fun memory => { f with memory }
      else none

def finish (memory : Memory) (part : Part) (rest : Code View Unit) : Option Memory :=
  (rest.run (system.look (system.owner part) memory)).map fun (_, view) =>
    system.leave part (system.write (system.owner part) memory view)

def whole (memory : Memory) : Part ⊕ Event → Option Memory
  | .inl part => if system.enabled memory part then finish system memory part (system.code part) else none
  | .inr e => system.event memory e

def entering (guard : Memory → Part → Prop) (f : Fine Memory View Part) : Action Part Event → Prop
  | .enter part => guard f.memory part
  | _ => True

instance (guard : Memory → Part → Prop) [∀ memory part, Decidable (guard memory part)]
    (f : Fine Memory View Part) (action : Action Part Event) : Decidable (entering guard f action) :=
  match action with
  | .enter part => inferInstanceAs (Decidable (guard f.memory part))
  | .next | .leave | .event _ => inferInstanceAs (Decidable True)

def beginning (guard : Memory → Part → Prop) (memory : Memory) : Part ⊕ Event → Prop
  | .inl part => guard memory part
  | .inr _ => True

end Steps

/-- Each core reaches its part of the memory, and events elsewhere leave that part alone. -/
structure Apart (system : System Memory Core View Part Event) : Prop where
  look_write : ∀ c memory view, system.look c (system.write c memory view) = view
  write_look : ∀ c memory, system.write c memory (system.look c memory) = memory
  write_write : ∀ c memory first second,
    system.write c (system.write c memory first) second = system.write c memory second
  unseen : ∀ e c memory memory', system.source e ≠ c → system.event memory e = some memory' →
    system.look c memory' = system.look c memory
  commutes : ∀ e part memory memory' view, system.source e ≠ system.owner part →
    system.event memory e = some memory' →
    system.event (system.leave part (system.write (system.owner part) memory view)) e =
      some (system.leave part (system.write (system.owner part) memory' view))

section Refinement
variable {system : System Memory Core View Part Event} {f f' : Fine Memory View Part}
variable {memory : Memory}

section Relation
omit [DecidableEq Core]

/-- The whole sections have reached what the section under way still has to do. -/
def Related (system : System Memory Core View Part Event) (f : Fine Memory View Part)
    (memory : Memory) : Prop :=
  match f.inside with
  | none => f.memory = memory
  | some (part, rest) => finish system f.memory part rest = some memory

theorem related_free (free : f.inside = none) : Related system f memory ↔ f.memory = memory := by
  rw [Related, free]

theorem related_inside {part : Part} {rest : Code View Unit} (inside : f.inside = some (part, rest)) :
    Related system f memory ↔ finish system f.memory part rest = some memory := by
  rw [Related, inside]

theorem advance_finish (apart : Apart system) {part : Part} {rest : Code View Unit}
    (advanced : advance system f part rest = some f') :
    ∃ rest', f'.inside = some (part, rest') ∧
      finish system f'.memory part rest' = finish system f.memory part rest := by
  cases rest with
  | done result => cases advanced
  | stuck => cases advanced
  | load read rest =>
      cases advanced
      exact ⟨_, rfl, rfl⟩
  | store write rest =>
      -- what the section writes at its end goes over this store
      cases advanced
      refine ⟨rest, rfl, ?_⟩
      simp only [finish, Code.run, apart.look_write, apart.write_write]

end Relation

variable [∀ memory part, Decidable (system.enabled memory part)]

theorem enter_related (related : Related system f memory) {part : Part}
    (completes : f.memory = memory → system.enabled memory part →
      ∃ after, finish system memory part (system.code part) = some after)
    (stepped : step system f (.enter part : Action Part Event) = some f') :
    f.memory = memory ∧ ∃ after, whole system memory (.inl part : Part ⊕ Event) = some after ∧
      Related system f' after := by
  cases inside : f.inside with
  | some held => simp only [step, inside, reduceCtorEq] at stepped
  | none =>
      rw [related_free inside] at related
      subst related
      refine ⟨rfl, ?_⟩
      by_cases enabled : system.enabled f.memory part
      · simp only [step, inside, if_pos enabled, Option.some.injEq] at stepped
        subst stepped
        obtain ⟨after, finished⟩ := completes rfl enabled
        exact ⟨after, by rw [whole, if_pos enabled, finished], (related_inside rfl).mpr finished⟩
      · simp only [step, inside, if_neg enabled, reduceCtorEq] at stepped

theorem next_related (apart : Apart system) (related : Related system f memory)
    (stepped : step system f (.next : Action Part Event) = some f') : Related system f' memory := by
  cases inside : f.inside with
  | none => simp only [step, inside, reduceCtorEq] at stepped
  | some held =>
      obtain ⟨part, rest⟩ := held
      simp only [step, inside] at stepped
      obtain ⟨rest', inside', same⟩ := advance_finish apart stepped
      rw [related_inside inside', same]
      exact (related_inside inside).mp related

theorem leave_related (apart : Apart system) (related : Related system f memory)
    (stepped : step system f (.leave : Action Part Event) = some f') : Related system f' memory := by
  cases inside : f.inside with
  | none => simp only [step, inside, reduceCtorEq] at stepped
  | some held =>
      obtain ⟨part, rest⟩ := held
      cases rest with
      | done result =>
          simp only [step, inside, Option.some.injEq] at stepped
          subst stepped
          have past := (related_inside inside).mp related
          simp only [finish, Code.run, Option.map_some, apart.write_look, Option.some.injEq] at past
          exact (related_free rfl).mpr past
      | stuck => simp only [step, inside, reduceCtorEq] at stepped
      | load read rest => simp only [step, inside, reduceCtorEq] at stepped
      | store write rest => simp only [step, inside, reduceCtorEq] at stepped

theorem event_cases {e : Event} (stepped : step system f (.event e) = some f') :
    Outside system f (system.source e) ∧
      ∃ next, system.event f.memory e = some next ∧ f' = { f with memory := next } := by
  by_cases outside : Outside system f (system.source e)
  · rw [step, if_pos outside] at stepped
    obtain ⟨next, happened, rfl⟩ := Option.map_eq_some_iff.mp stepped
    exact ⟨outside, next, happened, rfl⟩
  · rw [step, if_neg outside] at stepped
    cases stepped

/-- An event of another core is moved behind the section it falls into. -/
theorem event_related (apart : Apart system) (related : Related system f memory) {e : Event}
    (stepped : step system f (.event e) = some f') :
    ∃ after, system.event memory e = some after ∧ Related system f' after := by
  obtain ⟨outside, next, happened, rfl⟩ := event_cases stepped
  cases inside : f.inside with
  | none =>
      rw [related_free inside] at related
      subst related
      exact ⟨next, happened, (related_free rfl).mpr rfl⟩
  | some held =>
      obtain ⟨part, rest⟩ := held
      -- on the other side the section is over already, and the event comes behind it
      have elsewhere := (outside part rest inside).symm
      rw [related_inside inside] at related
      obtain ⟨⟨result, view⟩, ended, rfl⟩ := Option.map_eq_some_iff.mp related
      refine ⟨_, apart.commutes e part f.memory next view elsewhere happened, ?_⟩
      rw [related_inside rfl]
      simp only [finish, apart.unseen e _ _ _ elsewhere happened, ended, Option.map_some]

/-- Every run in which each section, once begun, comes to an end is a run of whole sections. -/
theorem runs_whole (apart : Apart system) {guard : Memory → Part → Prop} {start : Memory → Prop}
    (completes : ∀ memory part, Reaches (whole system) (beginning guard) start memory →
      guard memory part → system.enabled memory part →
      ∃ after, finish system memory part (system.code part) = some after)
    (reached : Reaches (step system) (entering guard) (fun f => start f.memory ∧ f.inside = none) f) :
    ∃ memory, Reaches (whole system) (beginning guard) start memory ∧ Related system f memory := by
  induction reached with
  | start begun => exact ⟨_, .start begun.1, (related_free begun.2).mpr rfl⟩
  | next action _ allowed stepped ih =>
      obtain ⟨memory, reached, related⟩ := ih
      cases action with
      | enter part =>
          obtain ⟨same, next, taken, related⟩ := enter_related related
            (fun same => completes memory part reached (same ▸ allowed)) stepped
          exact ⟨next, .next _ reached (same ▸ allowed) taken, related⟩
      | next => exact ⟨memory, reached, next_related apart related stepped⟩
      | leave => exact ⟨memory, reached, leave_related apart related stepped⟩
      | event e =>
          obtain ⟨next, happened, related⟩ := event_related apart related stepped
          have taken : whole system memory (.inr e : Part ⊕ Event) = some next := happened
          exact ⟨next, .next (.inr e) reached trivial taken, related⟩

theorem inside_keeps_step {Field : Type} {field : View → Field}
    (kept : ∀ part, (system.code part).Keeps field) {before after : Fine Memory View Part}
    {action : Action Part Event}
    (keeps : ∀ part rest, before.inside = some (part, rest) → rest.Keeps field)
    (stepped : step system before action = some after) (part : Part) (rest : Code View Unit)
    (inside : after.inside = some (part, rest)) : rest.Keeps field := by
  cases held : before.inside with
  | none =>
      cases action with
      | enter entered =>
          by_cases enabled : system.enabled before.memory entered
          · simp only [step, held, if_pos enabled, Option.some.injEq] at stepped
            subst stepped
            cases inside
            exact kept part
          · simp only [step, held, if_neg enabled, reduceCtorEq] at stepped
      | next => simp only [step, held, reduceCtorEq] at stepped
      | leave => simp only [step, held, reduceCtorEq] at stepped
      | event e =>
          obtain ⟨_, _, _, rfl⟩ := event_cases stepped
          cases held.symm.trans inside
  | some old =>
      obtain ⟨holder, code⟩ := old
      have still := keeps holder code held
      cases action with
      | enter entered => simp only [step, held, reduceCtorEq] at stepped
      | next =>
          simp only [step, held] at stepped
          cases code with
          | done result => cases stepped
          | stuck => cases stepped
          | load read next =>
              cases stepped
              cases inside
              exact still _
          | store write next =>
              cases stepped
              cases inside
              exact still.2
      | leave =>
          cases code with
          | done result =>
              simp only [step, held, Option.some.injEq] at stepped
              subst stepped
              cases inside
          | stuck => simp only [step, held, reduceCtorEq] at stepped
          | load read next => simp only [step, held, reduceCtorEq] at stepped
          | store write next => simp only [step, held, reduceCtorEq] at stepped
      | event e =>
          obtain ⟨_, _, _, rfl⟩ := event_cases stepped
          cases held.symm.trans inside
          exact still

theorem inside_keeps {Field : Type} {field : View → Field}
    (kept : ∀ part, (system.code part).Keeps field) {guard : Memory → Part → Prop}
    {start : Fine Memory View Part → Prop} (free : ∀ f, start f → f.inside = none)
    (reached : Reaches (step system) (entering guard) start f) {part : Part}
    {rest : Code View Unit} (inside : f.inside = some (part, rest)) : rest.Keeps field := by
  have always : ∀ part rest, f.inside = some (part, rest) → rest.Keeps field := by
    apply reached.invariant fun f => ∀ part rest, f.inside = some (part, rest) → rest.Keeps field
    · intro before begun part rest inside
      rw [free before begun] at inside
      cases inside
    · intro before action after keeps _ stepped
      exact inside_keeps_step kept keeps stepped
  exact always part rest inside

theorem ends_alone (apart : Apart system) {part : Part} {rest : Code View Unit}
    (inside : f.inside = some (part, rest)) (related : Related system f memory) :
    ∃ count, exec (step system) f (List.replicate count .next ++ [.leave] : List (Action Part Event)) =
      some ⟨memory, none⟩ := by
  rw [related_inside inside] at related
  induction rest generalizing f with
  | done result =>
      simp only [finish, Code.run, Option.map_some, apart.write_look, Option.some.injEq] at related
      refine ⟨0, ?_⟩
      simp only [List.replicate_zero, List.nil_append, exec, step, inside, related]
  | stuck => cases related
  | load read rest ih =>
      obtain ⟨count, executed⟩ := @ih (read (system.look (system.owner part) f.memory))
        { f with inside := some (part, rest (read (system.look (system.owner part) f.memory))) }
        rfl related
      refine ⟨count + 1, ?_⟩
      simp only [List.replicate_succ, List.cons_append, exec, step, inside, advance]
      exact executed
  | store write rest ih =>
      let view := write (system.look (system.owner part) f.memory)
      have same : finish system (system.write (system.owner part) f.memory view) part rest =
          some memory := by
        simp only [finish, Code.run, apart.look_write, apart.write_write, view] at related ⊢
        exact related
      obtain ⟨count, executed⟩ := @ih
        { memory := system.write (system.owner part) f.memory view, inside := some (part, rest) }
        rfl same
      refine ⟨count + 1, ?_⟩
      simp only [List.replicate_succ, List.cons_append, exec, step, inside, advance]
      exact executed

end Refinement

end MulticoreRtos.Atomicity
