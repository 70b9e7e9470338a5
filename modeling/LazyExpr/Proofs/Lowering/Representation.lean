import LazyExpr.Proofs.Lowering.Correctness
import LazyExpr.Proofs.Lowering.Discipline
import LazyExpr.Proofs.Machine.Kinds
import LazyExpr.Proofs.Machine.Retelling

namespace LazyExpr

open Narrated

theorem Storage.admits_ofLiteral (v : Value) : (ofLiteral v).admits v := by
  cases v <;> rfl

/-- Whatever slot the code gives in this scene is as its storage says. -/
def TypedCode.Fits (scene : Scene) (c : TypedCode) : Prop :=
  Yields (fun slot => slot.Fits scene.store c.storage) (c.code.evaluate scene)

namespace TypedCode

variable {scene : Scene} {c : TypedCode}

theorem Fits.constant (v : Value) : (TypedCode.constant v).Fits scene :=
  .pure (Slot.fits_value (Storage.admits_ofLiteral v))

theorem Fits.nullProvider : TypedCode.nullProvider.Fits scene := .pure ⟨.null, rfl, rfl⟩

theorem Fits.resolved (fits : c.Fits scene) : c.resolved.Fits scene := by
  unfold TypedCode.resolved
  split
  · exact (Yields.trivial _).bind fun slot _ => .computed fun v _ => Slot.fits_value rfl
  · exact fits

theorem Fits.boxed (fits : c.Fits scene) : c.boxed.Fits scene := by
  unfold TypedCode.boxed
  split
  · rename_i raw
    exact Yields.bind fits fun slot fit => .pure (fit.boxed raw)
  · exact fits

theorem Fits.await (fits : c.Fits scene) (point : Nat) : Fits scene ⟨.await c.code point, c.storage⟩ := by
  refine Yields.bind fits fun slot fit => ?_
  cases slot.pending? scene.store with
  | none => exact .pure fit
  | some awaiting => exact fun log a log' given => nomatch given

/-- The slot of `??` comes from one of its sides. -/
theorem yields_firstPresent {left right : Code} {P : Slot → Prop} (first : Yields P (left.evaluate scene))
    (second : Yields P (right.evaluate scene)) : Yields P ((Code.firstPresent left right).evaluate scene) := by
  refine first.bind fun slot fit => (Yields.trivial _).bind fun present _ => ?_
  cases present with
  | true => exact .pure fit
  | false => exact second

/-- Where both sides are computed values, so is the result. -/
theorem Fits.firstPresent {left right : TypedCode} (first : left.Fits scene) (second : right.Fits scene)
    (settledLeft : left.storage ≠ .deferred) (settledRight : right.storage ≠ .deferred) :
    (left.firstPresent right).Fits scene := by
  have present := yields_firstPresent (first.mono fun slot fit => fit.any settledLeft)
    (second.mono fun slot fit => fit.any settledRight)
  by_cases handles : left.storage.isHandle && right.storage.isHandle
  · have deferred : (left.firstPresent right).storage = .deferred := if_pos handles
    exact present.mono fun slot _ => deferred ▸ trivial
  · have any : (left.firstPresent right).storage = .data .any := if_neg handles
    exact present.mono fun slot fit => any ▸ fit

theorem Fits.ternary {yes no : TypedCode} (condition : TypedCode) (first : yes.Fits scene)
    (second : no.Fits scene) :
    (TypedCode.ternary condition yes no).Fits scene := by
  refine (Yields.trivial _).bind fun slot _ => (Yields.trivial _).bind fun truth _ => ?_
  have fromYes := first.mono fun slot fit => fit.merge (b := no.storage)
  have fromNo := second.mono fun slot fit => fit.merge (b := yes.storage)
  rw [Storage.merge_comm] at fromNo
  by_cases taken : truth.isTruthy
  · rw [if_pos taken]
    exact fromYes
  · rw [if_neg taken]
    exact fromNo

/-- What a binary operator computes from slots that fit their storage fits the storage of its result. -/
theorem Fits.binary {left right : TypedCode} (op : Operator) (first : left.Fits scene) (second : right.Fits scene) :
    Fits scene ⟨.binary op left.code right.code, op.resultStorage left.storage right.storage⟩ := by
  refine first.bind fun a fitLeft => second.bind fun b fitRight => .computed fun v result => ?_
  obtain ⟨x, holdsLeft, rest⟩ := Outcome.bind_eq_ok result
  obtain ⟨y, holdsRight, rest⟩ := Outcome.bind_eq_ok rest
  exact Slot.fits_value (Operator.admits_resultStorage (fitLeft.admits holdsLeft) (fitRight.admits holdsRight) rest)

theorem Fits.unary (op : Operator) (fits : c.Fits scene) :
    Fits scene ⟨.unary op c.code, op.unaryStorage c.storage⟩ := by
  refine Yields.bind fits fun a fit => .computed fun v result => ?_
  obtain ⟨x, holds, rest⟩ := Outcome.bind_eq_ok result
  exact Slot.fits_value (Operator.admits_unaryStorage (fit.admits holds) rest)

end TypedCode

/-- Whatever the host gives for the variables of an expression is as the layout says. -/
def Scene.Suits (scene : Scene) (layout : Layout) (e : Expr) : Prop :=
  ∀ v ∈ e.references, ∀ log slot, scene.host.answer log (v.1.lookup v.2) = .ok slot →
    slot.Fits scene.store (layout.provider v.1 v.2).storage

namespace Setting

variable {setting : Setting} {scene : Scene}

theorem provider_fits {span : Span} {scope : Scope} {name : String}
    (suits : scene.Suits setting.layout (.ref span scope name)) :
    (setting.layout.provider scope name).Fits scene := by
  rw [TypedCode.Fits, provider_evaluate]
  refine Yields.adapt _ fun log slot log' found => suits (scope, name) (List.mem_singleton_self _) log slot ?_
  exact congrArg Prod.fst found

/-- Eager code gives what its storage says. -/
theorem EagerCode.fits {e : Expr} {c : TypedCode} (derived : setting.EagerCode e c)
    (suits : scene.Suits setting.layout e) : c.Fits scene := by
  induction derived with
  | null span => exact .constant .null
  | literal span value => exact .constant value
  | list span items codes each _ =>
    refine (Yields.trivial _).bind fun slots _ => .computed fun v result => ?_
    obtain ⟨values, _, same⟩ := Outcome.map_eq_ok result
    exact Slot.fits_value (same ▸ rfl)
  | read span scope name _ => exact (provider_fits suits).resolved
  | readAwaited span scope name point deferred =>
    have awaited := (provider_fits suits).await point
    rw [deferred] at awaited
    exact awaited.resolved
  | field span base name safe b _ _ =>
    exact (Yields.trivial _).bind fun slot _ => .computed fun v _ => Slot.fits_value rfl
  | index span base key safe b k _ _ _ _ =>
    refine (Yields.trivial _).bind fun slot _ => (Yields.trivial _).bind fun slot' _ => ?_
    exact .computed fun v _ => Slot.fits_value rfl
  | coalesce span left right l r eagerLeft eagerRight ihLeft ihRight =>
    obtain ⟨suitsLeft, suitsRight⟩ := List.forall_mem_append.mp suits
    have both := (ihLeft suitsLeft).firstPresent (ihRight suitsRight)
    exact (both eagerLeft.storage_ne_deferred eagerRight.storage_ne_deferred).resolved
  | choose span condition yes no c y n _ _ _ _ ihYes ihNo =>
    obtain ⟨suitsBoth, suitsNo⟩ := List.forall_mem_append.mp suits
    obtain ⟨_, suitsYes⟩ := List.forall_mem_append.mp suitsBoth
    exact (TypedCode.Fits.ternary c (ihYes suitsYes) (ihNo suitsNo)).resolved
  | binary span op left right l r _ _ ihLeft ihRight =>
    obtain ⟨suitsLeft, suitsRight⟩ := List.forall_mem_append.mp suits
    exact .binary op (ihLeft suitsLeft) (ihRight suitsRight)
  | unary span op operand c _ ih => exact .unary op (ih suits)
  | call span name args codes each _ =>
    refine (Yields.trivial _).bind fun slots _ => (Yields.trivial _).bind fun values _ => ?_
    exact (Yields.trivial _).bind fun v _ => .pure (Slot.fits_value rfl)

/-- Code that yields a handle gives what its storage says. -/
theorem HandleCode.fits {mode : Mode} {e : Expr} {c : TypedCode} (derived : setting.HandleCode mode e c)
    (suits : scene.Suits setting.layout e) : c.Fits scene := by
  induction derived with
  | null => exact .nullProvider
  | provider _ => exact provider_fits suits
  | boxed eager _ => exact (eager.fits suits).boxed
  | @coalesce span left right l l' r derivedLeft derivedRight awaited _ _ =>
    have handles : l'.storage.isHandle && r.storage.isHandle := by
      rw [awaited.storage_eq, derivedLeft.storage_isHandle, derivedRight.storage_isHandle]
      rfl
    have deferred : (l'.firstPresent r).storage = .deferred := if_pos handles
    exact (Yields.trivial _).mono fun slot _ => deferred ▸ trivial
  | @choose span condition yes no c y n _ _ _ ihYes ihNo =>
    obtain ⟨suitsBoth, suitsNo⟩ := List.forall_mem_append.mp suits
    obtain ⟨_, suitsYes⟩ := List.forall_mem_append.mp suitsBoth
    exact .ternary c (ihYes suitsYes) (ihNo suitsNo)

end Setting

namespace Entry

variable {setting : Setting} {entry : Entry} {e : Expr} {next : Nat} {c : TypedCode}

/-- The storage that is recorded for a program is right. A computed value is never stored as a handle that may be
pending, and what was asked for as a handle is stored as one. In whatever order handles are completed and the frame
is run, if all that the host has answered for variables is as the layout says, the slot in which a run ends is as
the program says. -/
theorem done_fits (lowered : (entry.lower setting e next).1 = some c) :
    (entry.handleMode? setting e next = none → c.storage ≠ .deferred) ∧
    (∀ mode, entry.handleMode? setting e next = some mode → c.storage.isHandle) ∧
    ∀ (host : Host) (s : Session) (o : Options) (cancelled : Bool) (slot : Slot),
      Session.Reached (.assemble c) host (fun _ => False) (fun _ => True) s →
      (∀ v ∈ e.references, ∀ answer,
        (v.1.lookup v.2, answer) ∈ host.script (s.finish (.assemble c) host o cancelled).log →
          answer.Fits s.store (setting.layout.provider v.1 v.2).storage) →
      (s.finish (.assemble c) host o cancelled).result = .ok (.done slot) →
      slot.Fits s.store (Program.assemble c).storage := by
  have obeys := lower_obeys lowered
  refine ⟨fun computed => ?_, fun mode asked => ?_, fun host s o cancelled slot reached suited done => ?_⟩
  · rw [computed] at obeys
    exact Setting.EagerCode.storage_ne_deferred obeys
  · rw [asked] at obeys
    exact Setting.HandleCode.storage_isHandle obeys
  · have evaluated := reached.evaluate_retelling done (.refl s.store)
    generalize host.script (s.finish (.assemble c) host o cancelled).log = told at suited evaluated
    let scene : Scene := ⟨host.retelling told, s.store, false⟩
    have suits : scene.Suits setting.layout e := by
      intro v member before answer answered
      have entry := Host.entry_of_answer_retelling (v.1.lookup_ne_call v.2) answered
      exact suited v member answer (List.mem_of_getElem? entry)
    have fits : c.Fits scene := by
      cases asked : entry.handleMode? setting e next with
      | none =>
        rw [asked] at obeys
        exact Setting.EagerCode.fits obeys suits
      | some mode =>
        rw [asked] at obeys
        exact Setting.HandleCode.fits obeys suits
    exact fits [] slot _ evaluated

/-- The sum of a range variable and a number, wrapped. -/
theorem done_fits_sum :
    let e : Expr := .binary .synthetic .plus (.ref .synthetic .range "i") (.literal .synthetic (.int 1))
    let c := ((Setting.static [] []).compile e 0).1
    let host : Host := .ofTables [] [("i", .value (.int 3))] []
    let s : Session := { frame := .fresh (.assemble c), store := .empty }
    (s.finish (.assemble c) host {} false).result = .ok (.done (.handle (.boxed (.int 4)))) ∧
      c.storage = .data .int ∧ (Slot.handle (.boxed (.int 4))).Fits s.store (Program.assemble c).storage := by
  intro e c host s
  have done : (s.finish (.assemble c) host {} false).result = .ok (.done (.handle (.boxed (.int 4)))) := rfl
  have reached : Session.Reached (.assemble c) host (fun _ => False) (fun _ => True) s := .fresh .empty
  refine ⟨done, rfl, (@done_fits (.static [] []) .compile e 0 c rfl).2.2 host s {} false _ reached ?_ done⟩
  intro v member answer told
  obtain ⟨log, answered⟩ := Host.answer_of_mem told
  have same : v = (.range, "i") := List.mem_singleton.mp member
  rw [same] at answered ⊢
  exact ⟨3, (Except.ok.inj answered).symm⟩

end Entry

end LazyExpr
