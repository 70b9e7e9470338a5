import LazyExpr.Proofs.Machine.Evaluation
import LazyExpr.Proofs.Machine.Execution
import LazyExpr.Proofs.Machine.Readiness
import LazyExpr.Tree.Expr
import Mathlib.Data.List.Forall2

namespace LazyExpr

/-- The lookup that reads a variable. -/
def Scope.lookup (scope : Scope) (name : String) : Event :=
  match scope with
  | .param => .param name
  | .binding | .range => .binding name

theorem Scope.lookup_ne_call (scope : Scope) (name name' : String) (args : List Value) :
    scope.lookup name ≠ .call name' args := by
  cases scope <;> exact nofun

namespace Expr

open Narrated

mutual

/-- The value of an expression, computed from left to right without any code. Of `??` and `?:` only the side
that is taken is evaluated. -/
def evaluate (scene : Scene) : Expr → Narrated Failure Value
  | null _ => pure .null
  | literal _ value => pure value
  | list _ items => do
    let values ← evaluateAll scene items
    pure (.list values)
  | ref _ scope name => do
    let slot ← match scope with
      | .param => scene.host.askParam name
      | .binding | .range => scene.host.askBinding name
    ofOutcome (slot.plain scene.store)
  | field _ base name safe => do
    let value ← evaluate scene base
    ofOutcome (value.field name safe)
  | index _ base key safe => do
    let value ← evaluate scene base
    let key ← evaluate scene key
    ofOutcome (value.index key safe)
  | coalesce _ left right => do
    let value ← evaluate scene left
    if value.isNullish then evaluate scene right else pure value
  | choose _ condition yes no => do
    let value ← evaluate scene condition
    if value.isTruthy then evaluate scene yes else evaluate scene no
  | binary _ op left right => do
    let a ← evaluate scene left
    let b ← evaluate scene right
    ofOutcome (op.applyBinary a b)
  | unary _ op operand => do
    let value ← evaluate scene operand
    ofOutcome (op.applyUnary value)
  | call _ name args => do
    let values ← evaluateAll scene args
    scene.host.askCall name values

def evaluateAll (scene : Scene) : List Expr → Narrated Failure (List Value)
  | [] => pure []
  | e :: rest => do
    let value ← evaluate scene e
    let values ← evaluateAll scene rest
    pure (value :: values)

end

end Expr

/-- Asks the host for a variable. -/
def Host.askVariable (host : Host) (scope : Scope) (name : String) : Narrated Failure Slot := fun log =>
  (host.answer log (scope.lookup name), log ++ [scope.lookup name])

theorem Expr.evaluate_ref (scene : Scene) (span : Span) (scope : Scope) (name : String) :
    (ref span scope name).evaluate scene =
      scene.host.askVariable scope name >>= fun slot => Narrated.ofOutcome (slot.plain scene.store) := by
  cases scope <;> rfl

/-- Every handle that the host gives out is ready. -/
def Scene.AllReady (scene : Scene) : Prop :=
  (∀ log name slot, scene.host.readParam log name = .ok slot → slot.pending? scene.store = none) ∧
    ∀ log name slot, scene.host.readBinding log name = .ok slot → slot.pending? scene.store = none

theorem Scene.allReady_ofTables {params : List (String × Handle)} {bindings : List (String × Slot)}
    (registry : Registry) {store : Store} (paramsReady : ∀ entry ∈ params, entry.2.isReady store)
    (bindingsReady : ∀ entry ∈ bindings, entry.2.pending? store = none) :
    AllReady ⟨.ofTables params bindings registry, store, false⟩ := by
  have listed : ∀ {α : Type} (name : String) (entries : List (String × α)) (a : α),
      entries.lookup name = some a → (name, a) ∈ entries := by
    intro α name entries a found
    induction entries with
    | nil => cases found
    | cons entry rest ih =>
      rw [List.lookup_cons] at found
      cases same : name == entry.1 with
      | true =>
        simp only [same, Option.some.injEq] at found
        rw [beq_iff_eq.mp same, ← found]
        exact List.mem_cons_self
      | false =>
        simp only [same] at found
        exact List.mem_cons_of_mem _ (ih found)
  refine ⟨fun log name slot found => ?_, fun log name slot found => ?_⟩
  · simp only [Host.readParam, Host.ofTables] at found
    cases entry : params.lookup name with
    | none =>
      rw [entry] at found
      cases found
    | some h =>
      rw [entry] at found
      cases found
      simp only [Slot.pending?, paramsReady _ (listed name params h entry), if_true]
  · simp only [Host.readBinding, Host.ofTables] at found
    cases entry : bindings.lookup name with
    | none =>
      rw [entry] at found
      cases found
    | some local' =>
      rw [entry] at found
      cases found
      exact bindingsReady _ (listed name bindings slot entry)

/-- Outcomes that agree: related results, or the same failure. -/
inductive Agree {α β : Type} (R : α → β → Prop) : Except Pause α → Except Failure β → Prop
  | ok {a b} : R a b → Agree R (.ok a) (.ok b)
  | failed (failure) : Agree R (.error (.failed failure)) (.error failure)

namespace Narrated

/-- Two computations that ask the host the same and have outcomes that agree. -/
def Tracks {α β : Type} (R : α → β → Prop) (x : Narrated Pause α) (y : Narrated Failure β) : Prop :=
  ∀ log, Agree R (x log).1 (y log).1 ∧ (x log).2 = (y log).2

variable {α β γ δ : Type} {R : α → β → Prop} {S : γ → δ → Prop}

theorem Tracks.pure {a : α} {b : β} (related : R a b) : Tracks R (Pure.pure a) (Pure.pure b) :=
  fun _ => ⟨.ok related, rfl⟩

theorem Tracks.bind {x : Narrated Pause α} {y : Narrated Failure β} {k : α → Narrated Pause γ}
    {l : β → Narrated Failure δ} (first : Tracks R x y) (rest : ∀ a b, R a b → Tracks S (k a) (l b)) :
    Tracks S (x >>= k) (y >>= l) := by
  intro log
  obtain ⟨agree, sameLog⟩ := first log
  rw [bind_apply, bind_apply]
  generalize x log = a, y log = b at agree sameLog
  obtain ⟨outcome, log'⟩ := a
  obtain ⟨outcome', log''⟩ := b
  cases sameLog
  cases agree with
  | ok related => exact rest _ _ related log'
  | failed failure => exact ⟨.failed failure, rfl⟩

theorem Tracks.mono {R' : α → β → Prop} {x : Narrated Pause α} {y : Narrated Failure β} (tracks : Tracks R x y)
    (weaker : ∀ a b, R a b → R' a b) : Tracks R' x y := by
  intro log
  have ⟨agree, sameLog⟩ := tracks log
  refine ⟨?_, sameLog⟩
  generalize (x log).1 = outcome, (y log).1 = outcome' at agree
  cases agree with
  | ok related => exact .ok (weaker _ _ related)
  | failed failure => exact .failed failure

/-- What is only done to the outcome can be left out. -/
theorem Tracks.adapt (x : Narrated Failure α) : Tracks Eq (x.adapt .failed) x := by
  intro log
  rw [adapt_apply]
  rcases x log with ⟨failure | a, log'⟩
  · exact ⟨.failed failure, rfl⟩
  · exact ⟨.ok rfl, rfl⟩

/-- Whatever the computation gives has a property. -/
def Yields {ε : Type} (P : α → Prop) (x : Narrated ε α) : Prop := ∀ log a log', x log = (.ok a, log') → P a

variable {ε ε' : Type} {P : α → Prop} {Q : β → Prop} {x : Narrated ε α}

theorem Yields.trivial (x : Narrated ε α) : Yields (fun _ => True) x := fun _ _ _ _ => True.intro

theorem Yields.pure {a : α} (holds : P a) : Yields P (Pure.pure a : Narrated ε α) := by
  intro log b log' given
  cases given
  exact holds

theorem Yields.bind {k : α → Narrated ε β} (first : Yields P x) (rest : ∀ a, P a → Yields Q (k a)) :
    Yields Q (x >>= k) := by
  intro log b log' given
  obtain ⟨a, log'', asked, later⟩ := bind_eq_ok given
  exact rest a (first log a log'' asked) log'' b log' later

theorem Yields.mono {P' : α → Prop} (yields : Yields P x) (weaker : ∀ a, P a → P' a) : Yields P' x :=
  fun log a log' given => weaker a (yields log a log' given)

theorem Yields.adapt (f : ε → ε') (yields : Yields P x) : Yields P (x.adapt f) := by
  intro log a log' given
  rw [adapt_apply] at given
  rcases asked : x log with ⟨failure | a', log''⟩
  · rw [asked] at given
    cases given
  · rw [asked] at given
    cases given
    exact yields log a log'' asked

theorem Yields.computed {P : Slot → Prop} {result : Outcome Value} (each : ∀ v, result = .ok v → P (.value v)) :
    Yields P (computed result) := by
  intro log slot log' given
  obtain ⟨v, found, same⟩ : ∃ v, result = .ok v ∧ .value v = slot := by
    cases result with
    | error failure => cases given
    | ok v =>
      cases given
      exact ⟨v, rfl, rfl⟩
  exact same ▸ each v found

/-- What is done last can be left off if it neither fails nor asks. -/
theorem Tracks.before {δ : Type} {R : α → δ → Prop} {S : α → β → Prop} {P : β → Prop} {x : Narrated Pause α}
    {y : Narrated Failure β} {k : β → Narrated Failure δ} (tracks : Tracks R x (y >>= k)) (yields : Yields P y)
    (immediate : ∀ b, P b → ∃ d, k b = Pure.pure d ∧ ∀ a, R a d → S a b) : Tracks S x y := by
  intro log
  obtain ⟨agree, sameLog⟩ := tracks log
  rw [bind_apply] at agree sameLog
  generalize (x log).1 = outcome at agree ⊢
  rcases asked : y log with ⟨failure | b, log'⟩
  · rw [asked] at agree sameLog
    cases agree with
    | failed => exact ⟨.failed failure, sameLog⟩
  · rw [asked] at agree sameLog
    obtain ⟨d, same, related⟩ := immediate b (yields log b log' asked)
    simp only [same] at agree sameLog
    cases agree with
    | ok holds => exact ⟨.ok (related _ holds), sameLog⟩

end Narrated

end LazyExpr
