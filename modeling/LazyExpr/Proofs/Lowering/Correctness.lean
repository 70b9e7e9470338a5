import LazyExpr.Proofs.Lowering.Derivation
import LazyExpr.Proofs.Lowering.Meaning
import LazyExpr.Proofs.Machine.Assembly

namespace LazyExpr

open Narrated

theorem Slot.mapM_plain {store : Store} {slots : List Slot} {values : List Value}
    (holds : List.Forall₂ (Slot.Holds store) slots values) : slots.mapM (Slot.plain store) = .ok values := by
  induction holds with
  | nil => rfl
  | cons first _ ih =>
    rw [List.mapM_cons, ih, show Slot.plain store _ = _ from first]
    rfl

theorem Narrated.computed_tracks {store : Store} (result : Outcome Value) :
    Tracks (Slot.Holds store) (computed result) (ofOutcome result) := by
  intro log
  cases result with
  | error failure => exact ⟨.failed failure, rfl⟩
  | ok value => exact ⟨.ok rfl, rfl⟩

namespace Code

variable {scene : Scene} {α : Type}

/-- The code gives the value that the computation gives, plain or in a handle that is ready. -/
def Means (scene : Scene) (c : Code) (y : Narrated Failure Value) : Prop :=
  Tracks (Slot.Holds scene.store) (c.evaluate scene) y

/-- An operation on the value of a slot, done to the slot. -/
theorem Means.operand {inner : Code} {y : Narrated Failure Value} (means : inner.Means scene y)
    (operation : Value → Outcome Value) :
    Tracks (Slot.Holds scene.store)
      (inner.evaluate scene >>= fun slot => computed (slot.plain scene.store >>= operation))
      (y >>= fun value => ofOutcome (operation value)) := by
  refine Tracks.bind means fun slot value holds => ?_
  rw [show slot.plain scene.store = .ok value from holds]
  exact computed_tracks (operation value)

theorem Means.operands {first second : Code} {y z : Narrated Failure Value} (meansFirst : first.Means scene y)
    (meansSecond : second.Means scene z) (operation : Value → Value → Outcome Value) :
    Tracks (Slot.Holds scene.store)
      (first.evaluate scene >>= fun a => second.evaluate scene >>= fun b =>
        computed (a.plain scene.store >>= fun v => b.plain scene.store >>= fun w => operation v w))
      (y >>= fun v => z >>= fun w => ofOutcome (operation v w)) := by
  refine Tracks.bind meansFirst fun a v holdsFirst => Tracks.bind meansSecond fun b w holdsSecond => ?_
  rw [show a.plain scene.store = .ok v from holdsFirst, show b.plain scene.store = .ok w from holdsSecond]
  exact computed_tracks (operation v w)

/-- Waiting for what is ready passes it on. -/
theorem tracks_await {R : Slot → α → Prop} {provider : Code} {y : Narrated Failure α}
    (tracks : Tracks R (provider.evaluate scene) y) (ready : ∀ slot a, R slot a → slot.pending? scene.store = none)
    (point : Nat) : Tracks R ((Code.await provider point).evaluate scene) y := by
  rw [evaluate, ← bind_pure y]
  refine tracks.bind fun slot a related => ?_
  rw [ready slot a related]
  exact .pure related

theorem Means.await {provider : Code} {y : Narrated Failure Value} (means : provider.Means scene y) (point : Nat) :
    (Code.await provider point).Means scene y :=
  tracks_await means (fun _ _ holds => holds.ready) point

theorem Means.box {inner : Code} {y : Narrated Failure Value} (means : inner.Means scene y) :
    (Code.box inner).Means scene y := by
  rw [Means, evaluate, ← bind_pure y]
  exact Tracks.bind means fun slot value holds => .pure holds.toHandle

theorem Means.resolve {inner : Code} {y : Narrated Failure Value} (means : inner.Means scene y) :
    (Code.resolve inner).Means scene y := by
  rw [Means, evaluate, ← bind_pure y]
  refine Tracks.bind means fun slot value holds => ?_
  rw [show slot.plain scene.store = .ok value from holds]
  exact computed_tracks (.ok value)

theorem Means.firstPresent {left right : Code} {y z : Narrated Failure Value} (meansLeft : left.Means scene y)
    (meansRight : right.Means scene z) :
    (Code.firstPresent left right).Means scene (y >>= fun value => if value.isNullish then z else pure value) := by
  rw [Means, evaluate]
  refine Tracks.bind meansLeft fun slot value holds => ?_
  rw [holds.isPresent]
  change Tracks _ (if !value.isNullish then pure slot else right.evaluate scene) _
  cases value.isNullish with
  | true => exact meansRight
  | false => exact .pure holds

end Code

namespace TypedCode

open Code

variable {scene : Scene} {y : Narrated Failure Value}

theorem means_boxed {c : TypedCode} (means : c.code.Means scene y) : c.boxed.code.Means scene y := by
  unfold boxed
  split
  · exact means.box
  · exact means

theorem means_resolved {c : TypedCode} (means : c.code.Means scene y) : c.resolved.code.Means scene y := by
  unfold resolved
  split
  · exact means.resolve
  · exact means

/-- Branching looks at the truth of a value only, which its truth value shares. -/
theorem tracks_intoBranch {c : TypedCode} (means : c.code.Means scene y) :
    Tracks (fun slot value => ∃ truth, slot.Holds scene.store truth ∧ truth.isTruthy = value.isTruthy)
      (c.intoBranch.code.evaluate scene) y := by
  unfold intoBranch
  split
  · exact Tracks.mono means fun slot value holds => ⟨value, holds, rfl⟩
  · rw [evaluate, ← bind_pure y]
    refine Tracks.bind means fun slot value holds => ?_
    rw [show slot.plain scene.store = .ok value from holds]
    exact Tracks.pure ⟨.bool value.isTruthy, rfl, rfl⟩

theorem tracks_ternary {α : Type} {R : Slot → α → Prop} {condition yes no : TypedCode} {z w : Narrated Failure α}
    (meansCondition : condition.code.Means scene y) (tracksYes : Tracks R (yes.code.evaluate scene) z)
    (tracksNo : Tracks R (no.code.evaluate scene) w) :
    Tracks R ((ternary condition yes no).code.evaluate scene)
      (y >>= fun value => if value.isTruthy then z else w) := by
  rw [ternary, evaluate]
  refine Tracks.bind (tracks_intoBranch meansCondition) fun slot value ⟨truth, holds, same⟩ => ?_
  rw [show slot.plain scene.store = .ok truth from holds, ← same]
  change Tracks _ (if truth.isTruthy then yes.code.evaluate scene else no.code.evaluate scene) _
  cases truth.isTruthy with
  | true => exact tracksYes
  | false => exact tracksNo

end TypedCode

namespace Setting

variable {setting : Setting} {scene : Scene}

theorem provider_evaluate (scene : Scene) (scope : Scope) (name : String) :
    (setting.layout.provider scope name).code.evaluate scene =
      (scene.host.askVariable scope name).adapt Pause.failed := by
  cases scope <;> rfl

theorem provider_means (ready : scene.AllReady) (span : Span) (scope : Scope) (name : String) :
    (setting.layout.provider scope name).code.Means scene ((Expr.ref span scope name).evaluate scene) := by
  have settled : ∀ log slot, scene.host.answer log (scope.lookup name) = .ok slot →
      slot.pending? scene.store = none := by
    intro log slot found
    cases scope with
    | param => exact ready.1 log name slot found
    | binding | range => exact ready.2 log name slot found
  rw [Code.Means, provider_evaluate, Expr.evaluate_ref]
  intro log
  rw [adapt_apply, bind_apply, Host.askVariable]
  cases answered : scene.host.answer log (scope.lookup name) with
  | error failure => exact ⟨.failed failure, rfl⟩
  | ok slot =>
    obtain ⟨value, holds⟩ := Slot.holds_of_ready (settled log slot answered)
    refine ⟨?_, rfl⟩
    simp only [ofOutcome, show slot.plain scene.store = .ok value from holds]
    exact .ok holds

theorem tracks_evaluateAll {items : List Expr} {codes : List TypedCode}
    (each : List.Forall₂ (fun e c => c.code.Means scene (e.evaluate scene)) items codes) :
    Tracks (List.Forall₂ (Slot.Holds scene.store)) (Code.evaluateAll scene (codes.map TypedCode.code))
      (Expr.evaluateAll scene items) := by
  induction each with
  | nil => exact .pure .nil
  | cons first _ ih =>
    rw [List.map_cons, Code.evaluateAll, Expr.evaluateAll]
    exact first.bind fun slot value holds => ih.bind fun slots values allHold => .pure (.cons holds allHold)

/-- Eager code computes what the expression means, wherever it waits. -/
theorem EagerCode.means (ready : scene.AllReady) {e : Expr} {c : TypedCode} (derived : setting.EagerCode e c) :
    c.code.Means scene (e.evaluate scene) := by
  induction derived with
  | null span => exact .pure rfl
  | literal span value => exact .pure rfl
  | list span items codes _ ih =>
    refine (tracks_evaluateAll (ih.imp fun e c h => h.2)).bind fun slots values holds => ?_
    rw [Slot.mapM_plain holds]
    exact computed_tracks (.ok (.list values))
  | read span scope name _ => exact TypedCode.means_resolved (provider_means ready span scope name)
  | readAwaited span scope name point _ =>
    exact TypedCode.means_resolved ((provider_means ready span scope name).await point)
  | field span base name safe b _ ih => exact ih.operand fun value => value.field name safe
  | index span base key safe b k _ _ ihBase ihKey =>
    exact ihBase.operands ihKey fun value key => value.index key safe
  | coalesce span left right l r _ _ ihLeft ihRight => exact TypedCode.means_resolved (ihLeft.firstPresent ihRight)
  | choose span condition yes no c y n _ _ _ ihCondition ihYes ihNo =>
    exact TypedCode.means_resolved (TypedCode.tracks_ternary ihCondition ihYes ihNo)
  | binary span op left right l r _ _ ihLeft ihRight => exact ihLeft.operands ihRight op.applyBinary
  | unary span op operand c _ ih => exact ih.operand op.applyUnary
  | call span name args codes _ ih =>
    refine (tracks_evaluateAll (ih.imp fun e c h => h.2)).bind fun slots values holds => ?_
    rw [Slot.mapM_plain holds, ← bind_pure (scene.host.askCall name values)]
    exact (Tracks.adapt (scene.host.askCall name values)).bind fun a b same => .pure (same ▸ rfl)

theorem Awaited.means {left : Expr} {l l' : TypedCode} (awaited : setting.Awaited left l l')
    {y : Narrated Failure Value} (means : l.code.Means scene y) : l'.code.Means scene y := by
  cases awaited with
  | unneeded _ => exact means
  | present _ => exact means
  | waits _ => exact means.await _

/-- Code that yields a handle yields one with the value that the expression means. -/
theorem HandleCode.means (ready : scene.AllReady) {mode : Mode} {e : Expr} {c : TypedCode}
    (derived : setting.HandleCode mode e c) : c.code.Means scene (e.evaluate scene) := by
  induction derived with
  | null => exact .pure rfl
  | provider _ => exact provider_means ready _ _ _
  | boxed eager _ => exact TypedCode.means_boxed (eager.means ready)
  | coalesce _ _ awaited ihLeft ihRight => exact (awaited.means ihLeft).firstPresent ihRight
  | choose eager _ _ ihYes ihNo => exact TypedCode.tracks_ternary (eager.means ready) ihYes ihNo

end Setting

/-- The run is done with this value, or fails in this way. -/
def Finish.Gives (finish : Finish) (store : Store) : Outcome Value → Prop
  | .ok value => ∃ slot, finish.result = .ok (.done slot) ∧ slot.plain store = .ok value
  | .error failure => finish.result = .error failure

/-- Lowering preserves meaning. Whatever code is asked for, a run of its program asks the host what the
evaluation of the expression asks, in the same order, and gives the same value or the same failure. -/
theorem Entry.run_lower {setting : Setting} {entry : Entry} {e : Expr} {next : Nat} {c : TypedCode}
    (lowered : (entry.lower setting e next).1 = some c) {scene : Scene} (ready : scene.AllReady) :
    let finish := (Frame.fresh (.assemble c)).run (.assemble c) {} scene []
    finish.Gives scene.store (e.evaluate scene []).1 ∧ finish.log = (e.evaluate scene []).2 := by
  have means : c.code.Means scene (e.evaluate scene) := by
    rcases Entry.lower_derived lowered with derived | ⟨mode, derived⟩
    · exact derived.means ready
    · exact derived.means ready
  obtain ⟨result, log⟩ := Program.run_assemble c scene []
  obtain ⟨agree, sameLog⟩ := means []
  refine ⟨?_, log.trans sameLog⟩
  generalize (c.code.evaluate scene []).1 = outcome, (e.evaluate scene []).1 = outcome' at agree result
  cases agree with
  | ok holds => exact ⟨_, result, holds⟩
  | failed failure => exact result

/-- A parameter that is null has another one take its place. -/
theorem Entry.run_lower_fallback :
    let e : Expr := .coalesce .synthetic (.ref .synthetic .param "x") (.ref .synthetic .param "y")
    let c := ((Setting.static [] []).compile e 0).1
    let host : Host := .ofTables [("x", .null), ("y", .cell 0)] [] []
    let store := Store.empty.set 0 { value := some (.int 7) }
    let finish := (Frame.fresh (.assemble c)).run (.assemble c) {} ⟨host, store, false⟩ []
    finish.Gives store (.ok (.int 7)) ∧ finish.log = [.param "x", .param "y"] := by
  intro e c host store finish
  have ready : Scene.AllReady ⟨host, store, false⟩ := Scene.allReady_ofTables [] (by decide) (by decide)
  exact @Entry.run_lower (.static [] []) .compile e 0 c rfl ⟨host, store, false⟩ ready

end LazyExpr
