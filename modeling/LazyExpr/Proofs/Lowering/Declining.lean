import LazyExpr.Proofs.Lowering.Discipline

namespace LazyExpr

/-- The operands that a lazy choice could pass on: those reached from the root through operands of `??` and branches
of `?:` only. -/
inductive Expr.Exposes : Expr → Expr → Prop
  | root {e} : Exposes e e
  | left {span left right e} : Exposes left e → Exposes (.coalesce span left right) e
  | right {span left right e} : Exposes right e → Exposes (.coalesce span left right) e
  | yes {span condition yes no e} : Exposes yes e → Exposes (.choose span condition yes no) e
  | no {span condition yes no e} : Exposes no e → Exposes (.choose span condition yes no) e

/-- The null literal, or a variable whose slot is not a bare scalar. -/
inductive Layout.Holds (layout : Layout) : Expr → Prop
  | null {span} : Holds layout (.null span)
  | ref {span scope name} : (layout.provider scope name).storage.isRaw = false → Holds layout (.ref span scope name)

theorem Layout.not_settles_iff {layout : Layout} {resolved : List String} {scope : Scope} {name : String} :
    ¬ layout.Settles resolved scope name ↔
      scope ≠ .range ∧ (layout.provider scope name).storage = .deferred ∧ name ∉ resolved := by
  have unresolved : Expr.requiresSuspension resolved (.ref .synthetic scope name) = false ↔
      (scope ≠ .range → name ∈ resolved) := by
    cases scope <;> simp [Expr.requiresSuspension]
  rw [Layout.Settles, unresolved]
  tauto

namespace Setting

variable {setting : Setting} {mode : Mode}

theorem offersHandle_iff {e : Expr} : setting.offersHandle e ↔ ∃ x, e.Exposes x ∧ setting.layout.Holds x := by
  refine ⟨fun offers => ?_, fun holder => ?_⟩
  · induction e with
    | null => exact ⟨_, .root, .null⟩
    | ref span scope name => exact ⟨_, .root, .ref (by simpa only [offersHandle, Bool.not_eq_true'] using offers)⟩
    | coalesce span left right ihLeft ihRight =>
      rcases Bool.or_eq_true_iff.mp offers with left | right
      · obtain ⟨x, exposes, holds⟩ := ihLeft left
        exact ⟨x, .left exposes, holds⟩
      · obtain ⟨x, exposes, holds⟩ := ihRight right
        exact ⟨x, .right exposes, holds⟩
    | choose span condition yes no _ ihYes ihNo =>
      rcases Bool.or_eq_true_iff.mp offers with yes | no
      · obtain ⟨x, exposes, holds⟩ := ihYes yes
        exact ⟨x, .yes exposes, holds⟩
      · obtain ⟨x, exposes, holds⟩ := ihNo no
        exact ⟨x, .no exposes, holds⟩
    | _ => cases offers
  · obtain ⟨x, exposes, holds⟩ := holder
    induction exposes with
    | root =>
      cases holds with
      | null => rfl
      | ref handle => rw [offersHandle, handle, Bool.not_false]
    | left _ ih | yes _ ih => exact Bool.or_eq_true_iff.mpr (.inl (ih holds))
    | right _ ih | no _ ih => exact Bool.or_eq_true_iff.mpr (.inr (ih holds))

theorem lowerGeneric_isSome (suspension : mode.allowsSuspension) (e : Expr) (next : Nat) :
    (setting.lowerGeneric? mode e next).1.isSome = mode.allowsBoxing := by
  have generic : setting.Generic mode e next _ := lowerGeneric_generic e next
  generalize setting.lowerGeneric? mode e next = answer at generic ⊢
  cases generic with
  | ready boxing _ | waits boxing _ _ => exact boxing.symm
  | declined refused =>
    refine (Bool.eq_false_iff.mpr fun boxing => ?_).symm
    cases suspension.symm.trans (refused boxing).1

/-- Where suspension is permitted, code is given if values may be wrapped or if a handle is there to be passed
on. -/
theorem lower_isSome (suspension : mode.allowsSuspension) (e : Expr) (next : Nat) :
    (setting.lower? mode e next).1.isSome = (mode.allowsBoxing || setting.offersHandle e) := by
  induction e generalizing next with
  | null => exact (Bool.or_true _).symm
  | ref span scope name =>
    rw [lower?, offersHandle]
    generalize setting.layout.provider scope name = provider
    cases raw : provider.storage.isRaw with
    | true =>
      rw [if_pos rfl, Bool.not_true, Bool.or_false]
      cases mode.allowsBoxing <;> rfl
    | false => exact (Bool.or_true _).symm
  | coalesce span left right ihLeft ihRight =>
    obtain ⟨a, b, middle, after, first, second, whole⟩ := setting.lower_coalesce span left right suspension next
    have atLeft := ihLeft next
    have atRight := ihRight middle
    rw [first] at atLeft
    rw [second] at atRight
    rw [whole, offersHandle]
    cases a with
    | some l =>
      rw [← Bool.or_assoc, ← atLeft]
      rfl
    | none =>
      obtain ⟨unboxed, unoffered⟩ := Bool.or_eq_false_iff.mp atLeft.symm
      rw [unoffered, Bool.false_or, ← atRight]
      cases b with
      | some r => rfl
      | none => exact (lowerGeneric_isSome suspension _ after).trans unboxed
  | choose span condition yes no _ ihYes ihNo =>
    obtain ⟨a, b, middle, after, first, second, whole⟩ := setting.lower_choose span condition yes no suspension next
    have atYes := ihYes next
    have atNo := ihNo middle
    rw [first] at atYes
    rw [second] at atNo
    rw [whole, offersHandle]
    cases a with
    | some y =>
      rw [← Bool.or_assoc, ← atYes]
      rfl
    | none =>
      obtain ⟨_, unoffered⟩ := Bool.or_eq_false_iff.mp atYes.symm
      rw [unoffered, Bool.false_or, ← atNo]
      cases b <;> rfl
  | _ => exact (lowerGeneric_isSome suspension _ next).trans (Bool.or_false _).symm

/-- Where suspension is permitted, only what would have to be wrapped is declined, and only if it must not be. -/
theorem lower_eq_none (suspension : mode.allowsSuspension) (e : Expr) (next : Nat) :
    (setting.lower? mode e next).1 = none ↔ mode.allowsBoxing = false ∧ setting.offersHandle e = false := by
  rw [← Bool.or_eq_false_iff, ← lower_isSome suspension e next, Option.isSome_eq_false_iff,
    Option.isNone_iff_eq_none]

section Static

variable {α β : Type} {x : Option α} {p q : Prop}

theorem isSome_bind {k : α → Option β} (first : x.isSome ↔ p) (further : ∀ a, (k a).isSome ↔ q) :
    (x >>= k).isSome ↔ p ∧ q := by
  rw [← first]
  cases x with
  | none => simp
  | some a => simpa using further a

theorem isSome_map {f : α → β} (first : x.isSome ↔ p) : (x >>= fun a => pure (f a)).isSome ↔ p := by
  rw [← first]
  cases x <;> rfl

variable {layout : Layout} {resolved : List String}

theorem eagerAll_isSome {items : List Expr}
    (each : ∀ e ∈ items, ((static layout resolved).eagerWithoutSuspension? e).isSome ↔
      ∀ v ∈ e.references, layout.Settles resolved v.1 v.2) :
    ((static layout resolved).eagerAllWith (fun _ => none) items).isSome ↔
      ∀ v ∈ Expr.referencesOfAll items, layout.Settles resolved v.1 v.2 := by
  induction items with
  | nil => exact ⟨fun _ v member => (nomatch member), fun _ => rfl⟩
  | cons e rest ih =>
    rw [eagerAllWith, Expr.referencesOfAll, List.forall_mem_append]
    have others := ih fun e member => each e (List.mem_cons_of_mem _ member)
    exact isSome_bind (each e List.mem_cons_self) fun first => isSome_map others

/-- Eager code needs no suspension exactly if each variable of the expression is settled. -/
theorem eagerWithoutSuspension_isSome (e : Expr) : ((static layout resolved).eagerWithoutSuspension? e).isSome ↔
    ∀ v ∈ e.references, layout.Settles resolved v.1 v.2 := by
  induction e with
  | null | literal => exact ⟨fun _ v member => (nomatch member), fun _ => rfl⟩
  | list span items ih | call span name items ih =>
    rw [eagerWithoutSuspension?, eagerWith]
    exact isSome_map (eagerAll_isSome ih)
  | ref span scope name =>
    have analysed : (static layout resolved).mayWait (.ref span scope name) =
        Expr.requiresSuspension resolved (.ref .synthetic scope name) := by
      cases scope <;> rfl
    rw [eagerWithoutSuspension?, eagerWith, readWith, analysed, Expr.references, List.forall_mem_singleton,
      Layout.Settles]
    split
    · rename_i waits
      obtain ⟨deferred, unresolved⟩ := Bool.and_eq_true_iff.mp waits
      refine iff_of_false Bool.false_ne_true ?_
      rintro (present | settled)
      · exact present (beq_iff_eq.mp deferred)
      · exact Bool.false_ne_true (settled.symm.trans unresolved)
    · rename_i settled
      refine iff_of_true rfl ?_
      rcases Bool.and_eq_false_iff.mp (Bool.eq_false_iff.mpr settled) with present | settled
      · exact .inl (beq_eq_false_iff_ne.mp present)
      · exact .inr settled
  | field span base name safe ih | unary span op operand ih =>
    rw [eagerWithoutSuspension?, eagerWith]
    exact isSome_map ih
  | index span base key safe ihLeft ihRight | coalesce span left right ihLeft ihRight
  | binary span op left right ihLeft ihRight =>
    rw [eagerWithoutSuspension?, eagerWith, Expr.references, List.forall_mem_append]
    exact isSome_bind ihLeft fun l => isSome_map ihRight
  | choose span condition yes no ihCondition ihYes ihNo =>
    rw [eagerWithoutSuspension?, eagerWith, Expr.references, List.forall_mem_append, List.forall_mem_append,
      and_assoc]
    exact isSome_bind ihCondition fun c => isSome_bind ihYes fun y => isSome_map ihNo

end Static

/-- Without suspension a handle is declined where none is at hand and no computed value is ready to be wrapped. -/
theorem lower_avoiding (e : Expr) (next : Nat) : (setting.lower? .avoidSuspension e next).1 = none ↔
    (∀ span, e ≠ .null span) ∧ (∀ span scope name, e ≠ .ref span scope name) ∧
      setting.eagerWithoutSuspension? e = none := by
  have generic : ∀ e, (setting.lowerGeneric? .avoidSuspension e next).1 = none ↔
      setting.eagerWithoutSuspension? e = none := by
    intro e
    have generic : setting.Generic .avoidSuspension e next _ := lowerGeneric_generic e next
    generalize setting.lowerGeneric? .avoidSuspension e next = answer at generic ⊢
    cases generic with
    | ready _ found =>
      rw [found]
      exact iff_of_false (Option.some_ne_none _) (Option.some_ne_none _)
    | waits _ suspension _ => cases suspension
    | declined refused => exact iff_of_true rfl (refused rfl).2
  cases e with
  | null span => exact iff_of_false (Option.some_ne_none _) fun other => other.1 span rfl
  | ref span scope name =>
    refine iff_of_false ?_ fun other => other.2.1 span scope name rfl
    rw [lower?]
    cases (setting.layout.provider scope name).storage.isRaw <;> exact Option.some_ne_none _
  | _ =>
    refine (generic _).trans ⟨fun declined => ⟨?_, ?_, declined⟩, fun other => other.2.2⟩
    · rintro span ⟨⟩
    · rintro span scope name ⟨⟩

/-- Whether code is given does not depend on the numbers that are free. -/
theorem lower_isSome_next (e : Expr) (next next' : Nat) :
    (setting.lower? mode e next).1.isSome = (setting.lower? mode e next').1.isSome := by
  cases mode with
  | general | preserveStreaming => rw [lower_isSome rfl, lower_isSome rfl]
  | avoidSuspension =>
    rw [Bool.eq_iff_iff, ← not_iff_not, Option.not_isSome_iff_eq_none, Option.not_isSome_iff_eq_none,
      lower_avoiding, lower_avoiding]

/-- Exactly when lowering declines. In the general mode it never does. Where wrapping is not permitted it does if no
exposed operand holds a handle, and where suspension is not permitted if the expression is not a handle itself and
has a variable that may be pending. Where suspension is permitted, `??` and `?:` are declined if both sides are. -/
theorem lower_declines (layout : Layout) (resolved : List String) :
    (∀ e next, ∃ c after, (static layout resolved).lower? .general e next = (some c, after) ∧
      (static layout resolved).compile e next = (c, after)) ∧
    (∀ e next, ((static layout resolved).lower? .preserveStreaming e next).1 = none ↔
      ¬ ∃ x, e.Exposes x ∧ layout.Holds x) ∧
    (∀ e next, ((static layout resolved).lower? .avoidSuspension e next).1 = none ↔
      (∀ span, e ≠ .null span) ∧ (∀ span scope name, e ≠ .ref span scope name) ∧
        ∃ v ∈ e.references, v.1 ≠ .range ∧ (layout.provider v.1 v.2).storage = .deferred ∧ v.2 ∉ resolved) ∧
    ∀ mode : Mode, mode.allowsSuspension → ∀ span left right next nextLeft nextRight,
      (((static layout resolved).lower? mode (.coalesce span left right) next).1 = none ↔
        ((static layout resolved).lower? mode left nextLeft).1 = none ∧
          ((static layout resolved).lower? mode right nextRight).1 = none) ∧
      ∀ condition, ((static layout resolved).lower? mode (.choose span condition left right) next).1 = none ↔
        ((static layout resolved).lower? mode left nextLeft).1 = none ∧
          ((static layout resolved).lower? mode right nextRight).1 = none := by
  refine ⟨fun e next => ?_, fun e next => ?_, fun e next => ?_, fun mode suspension span left right next _ _ => ?_⟩
  · have given : ((static layout resolved).lower? .general e next).1.isSome := lower_isSome rfl e next
    rcases found : (static layout resolved).lower? .general e next with ⟨answer, after⟩
    rw [found] at given
    obtain ⟨c, same⟩ := Option.isSome_iff_exists.mp given
    cases same
    refine ⟨c, after, rfl, ?_⟩
    simp only [compile, bind, StateT.bind, found]
    rfl
  · have offered : (static layout resolved).offersHandle e ↔ ∃ x, e.Exposes x ∧ layout.Holds x := offersHandle_iff
    rw [lower_eq_none rfl, ← offered, Bool.not_eq_true]
    exact and_iff_right rfl
  · rw [lower_avoiding, ← Option.not_isSome_iff_eq_none, eagerWithoutSuspension_isSome]
    simp only [not_forall, exists_prop]
    exact and_congr_right fun _ => and_congr_right fun _ => exists_congr fun v => and_congr_right fun _ =>
      Layout.not_settles_iff
  · refine ⟨?_, fun condition => ?_⟩ <;>
      rw [lower_eq_none suspension, lower_eq_none suspension, lower_eq_none suspension, offersHandle,
        Bool.or_eq_false_iff, and_and_left]

end Setting

end LazyExpr
