import LazyExpr.Proofs.Lowering.Waiting

namespace LazyExpr

/-- Of two ways to compute the same thing the second must do without a number. It succeeds exactly where the first
way takes none, and with the same result. -/
structure Accord {α : Type} (x : StateM Nat α) (y : Option α) : Prop where
  found : ∀ a, y = some a → ∀ next, x next = (a, next)
  missing : y = none → ∀ next, next < (x next).2

namespace Accord

variable {α β : Type} {x : StateM Nat α} {y : Option α}

theorem pure (a : α) : Accord (pure a) (pure a) :=
  ⟨fun b same next => congrArg (·, next) (Option.some.inj same), fun missing => by cases missing⟩

theorem grows (accord : Accord x y) (next : Nat) : next ≤ (x next).2 := by
  cases found : y with
  | some a => exact Nat.le_of_eq (congrArg Prod.snd (accord.found a found next)).symm
  | none => exact Nat.le_of_lt (accord.missing found next)

/-- A number that has been taken is not given back, so that a sequence takes none exactly if its parts take none. -/
theorem bind {k : α → StateM Nat β} {l : α → Option β} (first : Accord x y) (rest : ∀ a, Accord (k a) (l a)) :
    Accord (x >>= k) (y >>= l) := by
  have sequence : ∀ next, (x >>= k) next = k (x next).1 (x next).2 := fun _ => rfl
  cases found : y with
  | some a =>
    have same : ∀ next, (x >>= k) next = k a next := fun next => by rw [sequence, first.found a found next]
    refine ⟨fun b given next => ?_, fun declined next => ?_⟩
    · rw [same, (rest a).found b given next]
    · rw [same]
      exact (rest a).missing declined next
  | none =>
    refine ⟨fun b given next => ?_, fun _ next => ?_⟩
    · cases given
    · rw [sequence]
      exact Nat.lt_of_lt_of_le (first.missing found next) ((rest _).grows _)

theorem sequential : Setting.Sequential fun α (x : StateM Nat α) (y : Option α) => Accord x y := ⟨pure, bind⟩

theorem waitFor {provider : TypedCode} (deferred : provider.storage = .deferred) :
    Accord (waitFor provider) none := by
  refine ⟨fun a given next => ?_, fun _ next => ?_⟩
  · cases given
  · rw [LazyExpr.waitFor, deferred]
    exact Nat.lt_succ_self next

end Accord

namespace Setting

/-- Eager code, wrapped, like `lowerGeneric?`. It is tried with suspension first, if that is permitted. -/
def lowerGenericWaiting? (setting : Setting) (mode : Mode) (e : Expr) : StateM Nat (Option TypedCode) := do
  if mode.allowsBoxing then
    if mode.allowsSuspension then
      let code ← setting.eager e
      pure (some code.boxed)
    else
      match setting.eagerWithoutSuspension? e with
      | some code => pure (some code.boxed)
      | none => pure none
  else pure none

theorem lowerGeneric_eq_waiting (setting : Setting) (mode : Mode) (e : Expr) :
    setting.lowerGeneric? mode e = setting.lowerGenericWaiting? mode e := by
  funext next
  rw [lowerGeneric_eq, lowerGenericWaiting?]
  cases mode.allowsBoxing with
  | false => rfl
  | true =>
    cases mode.allowsSuspension with
    | true => rfl
    | false =>
      cases found : setting.eagerWithoutSuspension? e with
      | none => rfl
      | some code =>
        have same : setting.eager e next = (code, next) := congrFun (eagerWith_eq_pure waitFor found) next
        rw [same]
        rfl

/-- Eager code is the same with and without suspension. Where there is code without suspension, it is also given
where suspension is permitted, and no number is taken; where there is none, one number at least is taken. So it
makes no difference to wrapped eager code which of the two is tried first. -/
theorem eager_agrees (setting : Setting) (e : Expr) :
    (∀ c, setting.eagerWithoutSuspension? e = some c → ∀ next, setting.eager e next = (c, next)) ∧
    (setting.eagerWithoutSuspension? e = none → ∀ next, next < (setting.eager e next).2) ∧
    ∀ mode, setting.lowerGeneric? mode e = setting.lowerGenericWaiting? mode e := by
  have accord : Accord (setting.eager e) (setting.eagerWithoutSuspension? e) :=
    eagerWith_relates Accord.sequential (fun _ deferred => .waitFor deferred) e
  exact ⟨accord.found, accord.missing, fun mode => setting.lowerGeneric_eq_waiting mode e⟩

end Setting

end LazyExpr
