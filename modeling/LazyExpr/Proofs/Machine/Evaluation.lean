import LazyExpr.Machine.Frame

namespace LazyExpr

/-- What keeps code from giving a slot: a failure, or a suspension point whose handle is pending. -/
inductive Pause
  | failed (failure : Failure)
  | waiting (point : Nat) (awaiting : Handle)

/-- How a run ends that cannot go on. -/
def Pause.halt : Pause → Outcome Halt
  | failed failure => .error failure
  | waiting point awaiting => .ok (.detached point awaiting)

/-- How a run ends that computes a slot. -/
def Pause.orDone : Except Pause Slot → Outcome Halt
  | .ok slot => .ok (.done slot)
  | .error pause => pause.halt

/-- A computation that takes note of what the host is asked, also where it ends early. -/
abbrev Narrated (ε : Type) := ExceptT ε (StateM Log)

theorem Narrated.bind_apply {ε α β : Type} (x : Narrated ε α) (k : α → Narrated ε β) (log : Log) :
    (x >>= k) log = match x log with
      | (.ok a, log') => k a log'
      | (.error e, log') => (.error e, log') := by
  change (match x log with | (a, log') => ExceptT.bindCont k a log') = _
  rcases x log with ⟨_ | _, log'⟩ <;> rfl

theorem Narrated.bind_eq_ok {ε α β : Type} {x : Narrated ε α} {k : α → Narrated ε β} {log log' : Log} {b : β}
    (given : (x >>= k) log = (.ok b, log')) : ∃ a log'', x log = (.ok a, log'') ∧ k a log'' = (.ok b, log') := by
  rw [bind_apply] at given
  rcases asked : x log with ⟨failure | a, log''⟩
  · rw [asked] at given
    cases given
  · rw [asked] at given
    exact ⟨a, log'', rfl, given⟩

theorem Narrated.adapt_apply {ε ε' α : Type} (f : ε → ε') (x : Narrated ε α) (log : Log) :
    x.adapt f log = ((x log).1.mapError f, (x log).2) := rfl

theorem Narrated.adapt_bind {ε ε' α β : Type} (f : ε → ε') (x : Narrated ε α) (k : α → Narrated ε β) :
    (x >>= k).adapt f = x.adapt f >>= fun a => (k a).adapt f := by
  funext log
  rw [bind_apply, adapt_apply, bind_apply, adapt_apply]
  rcases x log with ⟨_ | _, log'⟩ <;> rfl

namespace Host

def askParam (host : Host) (name : String) : Narrated Failure Slot := fun log =>
  (host.readParam log name, log ++ [.param name])

def askBinding (host : Host) (name : String) : Narrated Failure Slot := fun log =>
  (host.readBinding log name, log ++ [.binding name])

def askCall (host : Host) (name : String) (args : List Value) : Narrated Failure Value := fun log =>
  host.registry.call log name args

end Host

/-- An outcome that the host has no part in. -/
def Narrated.ofOutcome {α : Type} (outcome : Outcome α) : Narrated Failure α := fun log => (outcome, log)

/-- A plain value that was computed, as a slot. -/
def Narrated.computed (result : Outcome Value) : Narrated Pause Slot :=
  (ofOutcome (result.map .value)).adapt .failed

namespace Code

open Narrated

mutual

/-- The slot of a piece of code, computed without instructions and registers. Operands are evaluated from left
to right and looked into once all of them are there. -/
@[simp]
def evaluate (scene : Scene) : Code → Narrated Pause Slot
  | nullHandle => pure (.handle .null)
  | const value => pure (.value value)
  | param name => (scene.host.askParam name).adapt .failed
  | binding name => (scene.host.askBinding name).adapt .failed
  | box inner => do
    let slot ← evaluate scene inner
    pure (.handle slot.toHandle)
  | await provider point => do
    let slot ← evaluate scene provider
    match slot.pending? scene.store with
    | some awaiting => throw (.waiting point awaiting)
    | none => pure slot
  | resolve inner => do
    let slot ← evaluate scene inner
    computed (slot.plain scene.store)
  | truthy inner => do
    let slot ← evaluate scene inner
    computed ((slot.plain scene.store).map fun value => .bool value.isTruthy)
  | firstPresent left right => do
    let slot ← evaluate scene left
    let present ← (ofOutcome (slot.isPresent scene.store)).adapt .failed
    if present then pure slot else evaluate scene right
  | ternary condition yes no => do
    let slot ← evaluate scene condition
    let value ← (ofOutcome (slot.plain scene.store)).adapt .failed
    if value.isTruthy then evaluate scene yes else evaluate scene no
  | binary op left right => do
    let a ← evaluate scene left
    let b ← evaluate scene right
    computed (do op.applyBinary (← a.plain scene.store) (← b.plain scene.store))
  | unary op operand => do
    let slot ← evaluate scene operand
    computed (slot.plain scene.store >>= op.applyUnary)
  | field base name safe => do
    let slot ← evaluate scene base
    computed (do (← slot.plain scene.store).field name safe)
  | index base key safe => do
    let a ← evaluate scene base
    let b ← evaluate scene key
    computed (do (← a.plain scene.store).index (← b.plain scene.store) safe)
  | list items => do
    let slots ← evaluateAll scene items
    computed ((slots.mapM (Slot.plain scene.store)).map .list)
  | call name args => do
    let slots ← evaluateAll scene args
    let values ← (ofOutcome (slots.mapM (Slot.plain scene.store))).adapt .failed
    let value ← (scene.host.askCall name values).adapt .failed
    pure (.value value)

@[simp]
def evaluateAll (scene : Scene) : List Code → Narrated Pause (List Slot)
  | [] => pure []
  | code :: rest => do
    let slot ← evaluate scene code
    let slots ← evaluateAll scene rest
    pure (slot :: slots)

end

end Code

end LazyExpr
