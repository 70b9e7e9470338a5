import LazyExpr.Proofs.Lowering.Declining
import LazyExpr.Proofs.Lowering.Numbering

namespace LazyExpr

namespace Expr

variable {resolved : List String}

theorem anyRequiresSuspension_eq_false {items : List Expr} (each : ∀ e ∈ items,
      e.requiresSuspension resolved = false ↔
        ∀ v ∈ e.references, (ref .synthetic v.1 v.2).requiresSuspension resolved = false) :
    anyRequiresSuspension resolved items = false ↔
      ∀ v ∈ referencesOfAll items, (ref .synthetic v.1 v.2).requiresSuspension resolved = false := by
  induction items with
  | nil => exact iff_of_true rfl fun v member => absurd member List.not_mem_nil
  | cons e rest ih =>
    rw [anyRequiresSuspension, referencesOfAll, Bool.or_eq_false_iff, List.forall_mem_append,
      each e List.mem_cons_self, ih fun e member => each e (List.mem_cons_of_mem _ member)]

/-- An expression may have to wait exactly if some variable in it may have to. -/
theorem requiresSuspension_eq_false (e : Expr) : e.requiresSuspension resolved = false ↔
    ∀ v ∈ e.references, (ref .synthetic v.1 v.2).requiresSuspension resolved = false := by
  induction e with
  | null | literal => exact iff_of_true rfl fun v member => absurd member List.not_mem_nil
  | ref span scope name =>
    rw [references, List.forall_mem_singleton]
    cases scope <;> rfl
  | list span items ih | call span name items ih => exact anyRequiresSuspension_eq_false ih
  | field span base name safe ih | unary span op base ih => exact ih
  | index span left right safe ihLeft ihRight | coalesce span left right ihLeft ihRight
  | binary span op left right ihLeft ihRight =>
    rw [requiresSuspension, references, Bool.or_eq_false_iff, List.forall_mem_append, ihLeft, ihRight]
  | choose span condition yes no ihCondition ihYes ihNo =>
    rw [requiresSuspension, references, Bool.or_eq_false_iff, Bool.or_eq_false_iff, List.forall_mem_append,
      List.forall_mem_append, ihCondition, ihYes, ihNo]

end Expr

/-- The computation takes no number. -/
def Still {α : Type} (x : StateM Nat α) : Prop := ∀ next, (x next).2 = next

namespace Still

variable {α β : Type} {x : StateM Nat α}

theorem pure (a : α) : Still (pure a) := fun _ => rfl

theorem bind {k : α → StateM Nat β} (first : Still x) (rest : ∀ a, Still (k a)) : Still (x >>= k) :=
  fun next => (rest _ _).trans (first next)

theorem map (f : α → β) (still : Still x) : Still (f <$> x) := fun next => still next

/-- Where no number is taken there is no point to label. -/
theorem points_eq_nil {points : α → List Nat} (still : Still x) (labels : Labels [] x points) (next : Nat) :
    points (x next).1 = [] := by
  obtain ⟨count, atEnd, all⟩ := labels next
  rw [still next, Nat.left_eq_add] at atEnd
  rw [atEnd] at all
  exact List.perm_nil.mp all

end Still

namespace Setting

variable {layout : Layout} {resolved : List String} {setting : Setting} {mode : Mode} {e : Expr}

theorem eager_still (found : (setting.eagerWithoutSuspension? e).isSome) : Still (setting.eager e) := by
  obtain ⟨c, found⟩ := Option.isSome_iff_exists.mp found
  exact fun next => congrArg Prod.snd (congrFun (eagerWith_eq_pure waitFor found) next)

theorem lowerGeneric_still (eager : mode.allowsSuspension → Still (setting.eager e)) :
    Still (setting.lowerGeneric? mode e) := by
  intro next
  have generic : setting.Generic mode e next _ := lowerGeneric_generic e next
  generalize setting.lowerGeneric? mode e next = answer at generic ⊢
  cases generic with
  | ready | declined => rfl
  | waits _ suspension _ => exact eager suspension next

theorem orEager_still (eager : Still (setting.eager e)) (answer : Option TypedCode) :
    Still (setting.orEager e answer) := by
  cases answer with
  | some c => exact .pure c
  | none => exact eager.bind fun c => .pure c.boxed

theorem awaited_still (prompt : setting.mayWait e = false) (eager : Still (setting.eager e))
    (answer : Option TypedCode) : Still (setting.awaited e answer) := by
  cases answer with
  | some c =>
    rw [awaited, prompt]
    exact .pure c
  | none => exact orEager_still eager none

/-- What is known not to wait is computed without suspension. -/
theorem eagerWithoutSuspension_prompt (prompt : e.requiresSuspension resolved = false) :
    ((static layout resolved).eagerWithoutSuspension? e).isSome :=
  (eagerWithoutSuspension_isSome e).mpr fun v member =>
    .inr ((Expr.requiresSuspension_eq_false e).mp prompt v member)

theorem eager_prompt (prompt : e.requiresSuspension resolved = false) : Still ((static layout resolved).eager e) :=
  eager_still (eagerWithoutSuspension_prompt prompt)

/-- No number is taken where suspension is not permitted, nor where nothing has to wait. -/
theorem lower_still (prompt : mode.allowsSuspension → e.requiresSuspension resolved = false) :
    Still ((static layout resolved).lower? mode e) := by
  induction e with
  | null => exact .pure _
  | ref span scope name =>
    rw [lower?]
    split
    · exact .pure _
    · exact .pure _
  | coalesce span left right ihLeft ihRight =>
    rw [lower?]
    split
    · rename_i suspension
      have whole := prompt suspension
      obtain ⟨promptLeft, promptRight⟩ := Bool.or_eq_false_iff.mp whole
      refine (ihLeft fun _ => promptLeft).bind fun a => (ihRight fun _ => promptRight).bind fun b => ?_
      split
      · exact lowerGeneric_still fun _ => eager_prompt whole
      · refine (orEager_still (eager_prompt promptRight) b).bind fun r => ?_
        exact (awaited_still promptLeft (eager_prompt promptLeft) a).bind fun l => .pure _
    · rename_i fixed
      exact lowerGeneric_still fun suspension => absurd suspension fixed
  | choose span condition yes no _ ihYes ihNo =>
    rw [lower?]
    split
    · rename_i suspension
      obtain ⟨promptSides, promptNo⟩ := Bool.or_eq_false_iff.mp (prompt suspension)
      obtain ⟨promptCondition, promptYes⟩ := Bool.or_eq_false_iff.mp promptSides
      refine (ihYes fun _ => promptYes).bind fun a => (ihNo fun _ => promptNo).bind fun b => ?_
      split
      · exact .pure _
      · refine (eager_prompt promptCondition).bind fun c => ?_
        refine (orEager_still (eager_prompt promptYes) a).bind fun y => ?_
        exact (orEager_still (eager_prompt promptNo) b).bind fun n => .pure _
    · rename_i fixed
      exact lowerGeneric_still fun suspension => absurd suspension fixed
  | _ => exact lowerGeneric_still fun suspension => eager_prompt (prompt suspension)

theorem lowerPrint_still (prompt : e.requiresSuspension resolved = false) :
    Still ((static layout resolved).lowerPrint e) := by
  refine (lower_still fun _ => prompt).bind fun answer => ?_
  cases answer with
  | some c => exact .pure _
  | none => exact (eager_prompt prompt).bind fun c => .pure _

end Setting

/-- Whatever is asked for, no number is taken where nothing has to wait. -/
theorem Entry.lower_still {layout : Layout} {resolved : List String} {e : Expr}
    (prompt : e.requiresSuspension resolved = false) (entry : Entry) :
    Still (entry.lower (.static layout resolved) e) := by
  have handle : ∀ mode, Still ((Setting.static layout resolved).lower? mode e) :=
    fun mode => Setting.lower_still fun _ => prompt
  have eager := @Setting.eager_prompt layout resolved e prompt
  cases entry with
  | compile | binding => exact ((handle _).bind (Setting.orEager_still eager)).map some
  | streaming | avoiding => exact handle _
  | inMode mode detacher =>
    rw [lower]
    split
    · exact handle _
    · exact .pure none
  | print => exact (Setting.lowerPrint_still prompt).map _
  | eager => exact eager.map some
  | eagerWithoutSuspension => exact .pure _

namespace Setting

/-- What the analysis promises not to wait is lowered without suspension: code is given both where suspension must
be avoided and where it is not at hand, and no request for code leads to a suspension point. If no local is
declared, eager code does without suspension exactly where the analysis promises it. Where suspension must be
avoided there is no suspension point in any case. -/
theorem lower_prompt (layout : Layout) (resolved : List String) :
    (∀ e : Expr, e.requiresSuspension resolved = false →
      (∀ next, ((static layout resolved).lower? .avoidSuspension e next).1.isSome) ∧
      ((static layout resolved).eagerWithoutSuspension? e).isSome ∧
      ∀ (entry : Entry) (next : Nat) (c : TypedCode),
        (entry.lower (static layout resolved) e next).1 = some c → c.code.points = []) ∧
    (∀ e : Expr, ((static [] resolved).eagerWithoutSuspension? e).isSome ↔ e.requiresSuspension resolved = false) ∧
    ∀ (e : Expr) (next : Nat) (c : TypedCode),
      ((static layout resolved).lower? .avoidSuspension e next).1 = some c → c.code.points = [] := by
  refine ⟨fun e prompt => ⟨fun next => ?_, eagerWithoutSuspension_prompt prompt, fun entry next c lowered => ?_⟩,
    fun e => ⟨fun found => ?_, eagerWithoutSuspension_prompt⟩, fun e next c lowered => ?_⟩
  · rw [← Option.not_isNone, Bool.not_eq_true', Bool.eq_false_iff, Ne, Option.isNone_iff_eq_none, lower_avoiding]
    rintro ⟨_, _, declined⟩
    have found := @eagerWithoutSuspension_prompt layout resolved e prompt
    rw [declined] at found
    cases found
  · have none := (Entry.lower_still prompt entry).points_eq_nil (entry.lower_labels (static layout resolved) e) next
    rw [lowered] at none
    exact none
  · refine (Expr.requiresSuspension_eq_false e).mpr fun v member => ?_
    rcases (eagerWithoutSuspension_isSome e).mp found v member with present | settled
    · obtain ⟨scope, name⟩ := v
      cases scope with
      | range => rfl
      | param | binding => exact absurd rfl present
    · exact settled
  · have still : Still ((static layout resolved).lower? .avoidSuspension e) :=
      lower_still fun suspension => absurd suspension (by decide)
    have none := still.points_eq_nil (lower_labels e) next
    rw [lowered] at none
    exact none

end Setting

end LazyExpr
