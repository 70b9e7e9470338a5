import LazyExpr.Proofs.Lowering.Declining

namespace LazyExpr

namespace TypedCode

@[simp]
theorem boxes_resolved (c : TypedCode) : c.resolved.code.boxes = c.code.boxes := by
  unfold resolved
  split <;> rfl

@[simp]
theorem boxes_intoBranch (c : TypedCode) : c.intoBranch.code.boxes = c.code.boxes := by
  unfold intoBranch
  split <;> rfl

@[simp]
theorem resolved_isRaw (c : TypedCode) : c.resolved.storage.isRaw = c.storage.isRaw := by
  obtain ⟨code, storage⟩ := c
  cases storage <;> rfl

end TypedCode

theorem Storage.merge_isRaw {a b : Storage} (raw : (a.merge b).isRaw = true) : a.isRaw = true := by
  unfold merge at raw
  split at raw
  · exact raw
  · split at raw <;> cases raw

namespace Setting

variable {setting : Setting} {mode : Mode}

theorem waitFor_boxes (c : TypedCode) (next : Nat) : (waitFor c next).1.code.boxes = c.code.boxes := by
  unfold waitFor
  split <;> rfl

theorem codes_boxes {items : List Expr} {codes : List TypedCode}
    (each : List.Forall₂ (fun _ c => c.code.boxes = 0) items codes) :
    Code.boxesOfAll (codes.map TypedCode.code) = 0 := by
  induction each with
  | nil => rfl
  | cons first _ ih => rw [List.map_cons, Code.boxesOfAll, first, ih]

theorem provider_boxes (layout : Layout) (scope : Scope) (name : String) :
    (layout.provider scope name).code.boxes = 0 := by
  cases scope <;> rfl

/-- Nothing is wrapped in eager code. -/
theorem EagerCode.boxes_eq_zero {e : Expr} {c : TypedCode} (derived : setting.EagerCode e c) :
    c.code.boxes = 0 := by
  induction derived with
  | null | literal => rfl
  | list span items codes _ ih | call span name items codes _ ih =>
    exact codes_boxes (ih.imp fun e c h => h.2)
  | read span scope name settled => rw [TypedCode.boxes_resolved, provider_boxes]
  | readAwaited span scope name point deferred => rw [TypedCode.boxes_resolved, Code.boxes, provider_boxes]
  | field span base name safe b _ ih | unary span op operand c _ ih => exact ih
  | index span base key safe b k _ _ ihLeft ihRight | binary span op left right l r _ _ ihLeft ihRight =>
    rw [Code.boxes, ihLeft, ihRight]
  | coalesce span left right l r _ _ ihLeft ihRight =>
    rw [TypedCode.boxes_resolved, TypedCode.firstPresent, Code.boxes, ihLeft, ihRight]
  | choose span condition yes no c y n _ _ _ ihCondition ihYes ihNo =>
    rw [TypedCode.boxes_resolved, TypedCode.ternary, Code.boxes, TypedCode.boxes_intoBranch, ihCondition, ihYes,
      ihNo]

/-- Where and whether eager code waits makes no difference to the storage of its result. -/
theorem EagerCode.storage_unique {e : Expr} {c c' : TypedCode} (derived : setting.EagerCode e c)
    (derived' : setting.EagerCode e c') : c.storage = c'.storage := by
  have resolved : ∀ {c c' : TypedCode}, c.storage = c'.storage → c.resolved.storage = c'.resolved.storage := by
    rintro ⟨code, storage⟩ ⟨code', storage'⟩ same
    cases same
    cases storage <;> rfl
  induction derived generalizing c' with
  | null | literal | list | field | index | call =>
    cases derived'
    rfl
  | read span scope name settled =>
    cases derived' with
    | read => rfl
    | readAwaited deferred => exact resolved deferred
  | readAwaited span scope name point deferred =>
    cases derived' with
    | read => exact resolved deferred.symm
    | readAwaited => exact resolved rfl
  | coalesce span left right l r _ _ ihLeft ihRight =>
    cases derived' with
    | coalesce left' right' =>
      refine resolved ?_
      rw [TypedCode.firstPresent, TypedCode.firstPresent, ihLeft left', ihRight right']
  | choose span condition yes no c y n _ _ _ _ ihYes ihNo =>
    cases derived' with
    | choose _ yes' no' =>
      refine resolved ?_
      rw [TypedCode.ternary, TypedCode.ternary, ihYes yes', ihNo no']
  | binary span op left right l r _ _ ihLeft ihRight =>
    cases derived' with
    | binary left' right' => rw [ihLeft left', ihRight right']
  | unary span op operand c _ ih =>
    cases derived' with
    | unary operand' => rw [ih operand']

/-- How many values the wrapped eager code of an expression wraps: one if the computed value is a bare scalar. -/
def eagerWraps (setting : Setting) (e : Expr) : Nat := if (setting.eager e 0).1.storage.isRaw then 1 else 0

theorem EagerCode.eagerWraps_eq {e : Expr} {c : TypedCode} (derived : setting.EagerCode e c) :
    setting.eagerWraps e = if c.storage.isRaw then 1 else 0 := by
  rw [eagerWraps, (setting.eager_code e 0).storage_unique derived]

theorem EagerCode.boxed_boxes {e : Expr} {c : TypedCode} (derived : setting.EagerCode e c) :
    c.boxed.code.boxes = setting.eagerWraps e := by
  rw [derived.eagerWraps_eq, TypedCode.boxed]
  split
  · rw [Code.boxes, derived.boxes_eq_zero]
  · exact derived.boxes_eq_zero

/-- How many values are wrapped in the handle of an expression. Where `??` and `?:` pass on handles their sides wrap
values of their own. -/
def wraps (setting : Setting) (mode : Mode) : Expr → Nat
  | .coalesce span left right =>
    if mode.allowsSuspension &&
        (mode.allowsBoxing || (setting.offersHandle left || setting.offersHandle right)) then
      setting.wraps mode left + setting.wraps mode right
    else setting.eagerWraps (.coalesce span left right)
  | .choose span condition yes no =>
    if mode.allowsSuspension && (mode.allowsBoxing || (setting.offersHandle yes || setting.offersHandle no)) then
      setting.wraps mode yes + setting.wraps mode no
    else setting.eagerWraps (.choose span condition yes no)
  | e => setting.eagerWraps e

/-- Where no handle is passed on, what is wrapped is the computed value. -/
theorem wraps_eq_eagerWraps {e : Expr}
    (unoffered : (mode.allowsSuspension && (mode.allowsBoxing || setting.offersHandle e)) = false) :
    setting.wraps mode e = setting.eagerWraps e := by
  cases e with
  | coalesce | choose => exact if_neg (Bool.eq_false_iff.mp unoffered)
  | _ => rfl

theorem lowerGeneric_boxes {e : Expr} {next : Nat} {c : TypedCode}
    (lowered : (setting.lowerGeneric? mode e next).1 = some c) : c.code.boxes = setting.eagerWraps e := by
  have generic : setting.Generic mode e next _ := lowerGeneric_generic e next
  generalize setting.lowerGeneric? mode e next = answer at generic lowered
  cases generic with
  | ready _ found =>
    cases lowered
    exact (eagerWithoutSuspension_code found).boxed_boxes
  | waits _ _ _ =>
    cases lowered
    exact (setting.eager_code e next).boxed_boxes
  | declined _ => cases lowered

theorem eagerWraps_ref (span : Span) (scope : Scope) (name : String) : setting.eagerWraps (.ref span scope name) =
    if (setting.layout.provider scope name).storage.isRaw then 1 else 0 := by
  have derived := setting.eager_code (.ref span scope name) 0
  rw [eagerWraps]
  generalize (setting.eager _ 0).1 = c at derived ⊢
  cases derived with
  | read _ => rw [TypedCode.resolved_isRaw]
  | readAwaited deferred => rw [TypedCode.resolved_isRaw, deferred]

theorem awaited_boxes (e : Expr) (answer : Option TypedCode) (next : Nat) :
    (setting.awaited e answer next).1.code.boxes = (setting.orEager e answer next).1.code.boxes := by
  cases answer with
  | some c =>
    rw [awaited]
    split
    · exact waitFor_boxes c next
    · rfl
  | none => rfl

/-- What is wrapped in an operand of a lazy choice, be it lowered on its own or computed. -/
theorem orEager_boxes {e : Expr} {next after : Nat} {answer : Option TypedCode} (suspension : mode.allowsSuspension)
    (counted : ∀ {next c}, (setting.lower? mode e next).1 = some c → c.code.boxes = setting.wraps mode e)
    (found : setting.lower? mode e next = (answer, after)) (next' : Nat) :
    (setting.orEager e answer next').1.code.boxes = setting.wraps mode e := by
  cases answer with
  | some c => exact counted (congrArg Prod.fst found)
  | none =>
    have unoffered := (lower_eq_none suspension e next).mp (congrArg Prod.fst found)
    rw [wraps_eq_eagerWraps (Bool.and_eq_false_iff.mpr (.inr (Bool.or_eq_false_iff.mpr unoffered)))]
    exact (setting.eager_code e next').boxed_boxes

/-- Where an answer is given, one of two attempts has given code. -/
theorem given_of_attempts {left right : Expr} {next middle after : Nat} {a b : Option TypedCode}
    (suspension : mode.allowsSuspension) (first : setting.lower? mode left next = (a, middle))
    (second : setting.lower? mode right middle = (b, after))
    (offered : (mode.allowsBoxing || (setting.offersHandle left || setting.offersHandle right)) = true) :
    ¬ (a.isNone && b.isNone) = true := by
  intro neither
  obtain ⟨noneA, noneB⟩ := Bool.and_eq_true_iff.mp neither
  obtain ⟨unboxed, unoffered⟩ := (lower_eq_none suspension left next).mp
    ((congrArg Prod.fst first).trans (Option.isNone_iff_eq_none.mp noneA))
  obtain ⟨_, unoffered'⟩ := (lower_eq_none suspension right middle).mp
    ((congrArg Prod.fst second).trans (Option.isNone_iff_eq_none.mp noneB))
  rw [unboxed, unoffered, unoffered'] at offered
  cases offered

/-- The number of values that are wrapped in a handle depends on nothing but the expression, its setting and the
mode. -/
theorem lower_boxes {e : Expr} {next : Nat} {c : TypedCode} (lowered : (setting.lower? mode e next).1 = some c) :
    c.code.boxes = setting.wraps mode e := by
  induction e generalizing next c with
  | null =>
    cases lowered
    rfl
  | ref span scope name =>
    have bare := provider_boxes setting.layout scope name
    have computed : setting.wraps mode (.ref span scope name) = setting.eagerWraps (.ref span scope name) := rfl
    rw [lower?] at lowered
    rw [computed, eagerWraps_ref]
    generalize setting.layout.provider scope name = provider at lowered bare ⊢
    by_cases raw : provider.storage.isRaw
    · rw [if_pos raw] at lowered ⊢
      by_cases boxing : mode.allowsBoxing
      · rw [if_pos boxing] at lowered
        cases lowered
        rw [TypedCode.boxed, if_pos raw, Code.boxes, bare]
      · rw [if_neg boxing] at lowered
        cases lowered
    · rw [if_neg raw] at lowered ⊢
      cases lowered
      exact bare
  | coalesce span left right ihLeft ihRight =>
    by_cases suspension : mode.allowsSuspension
    · have offered := @lower_isSome setting mode suspension (.coalesce span left right) next
      rw [lowered] at offered
      obtain ⟨a, b, middle, after, first, second, whole⟩ := setting.lower_coalesce span left right suspension next
      rw [whole, if_neg (given_of_attempts suspension first second offered.symm)] at lowered
      cases lowered
      have sides : setting.wraps mode (.coalesce span left right) =
          setting.wraps mode left + setting.wraps mode right :=
        if_pos (Bool.and_eq_true_iff.mpr ⟨suspension, offered.symm⟩)
      rw [sides, ← orEager_boxes suspension ihLeft first, ← orEager_boxes suspension ihRight second,
        ← awaited_boxes]
      rfl
    · rw [lower?, if_neg suspension] at lowered
      rw [wraps_eq_eagerWraps (Bool.and_eq_false_iff.mpr (.inl (Bool.eq_false_iff.mpr suspension)))]
      exact lowerGeneric_boxes lowered
  | choose span condition yes no _ ihYes ihNo =>
    by_cases suspension : mode.allowsSuspension
    · have offered := @lower_isSome setting mode suspension (.choose span condition yes no) next
      rw [lowered] at offered
      obtain ⟨a, b, middle, after, first, second, whole⟩ :=
        setting.lower_choose span condition yes no suspension next
      rw [whole, if_neg (given_of_attempts suspension first second offered.symm)] at lowered
      cases lowered
      have sides : setting.wraps mode (.choose span condition yes no) =
          setting.wraps mode yes + setting.wraps mode no :=
        if_pos (Bool.and_eq_true_iff.mpr ⟨suspension, offered.symm⟩)
      have branch := (setting.eager_code condition after).boxes_eq_zero
      rw [sides, ← orEager_boxes suspension ihYes first, ← orEager_boxes suspension ihNo second]
      change Code.boxes (TypedCode.intoBranch (setting.eager condition after).1).code + _ + _ = _
      rw [TypedCode.boxes_intoBranch, branch, Nat.zero_add]
      rfl
    · rw [lower?, if_neg suspension] at lowered
      rw [wraps_eq_eagerWraps (Bool.and_eq_false_iff.mpr (.inl (Bool.eq_false_iff.mpr suspension)))]
      exact lowerGeneric_boxes lowered
  | _ => exact lowerGeneric_boxes lowered

/-- In the general mode at least as much is wrapped as if the value were computed: a bare scalar comes from a side
that is one too. -/
theorem eagerWraps_le_wraps (e : Expr) : setting.eagerWraps e ≤ setting.wraps .general e := by
  induction e with
  | coalesce span left right _ _ =>
    have computed : setting.EagerCode (.coalesce span left right) _ :=
      .coalesce (setting.eager_code left 0) (setting.eager_code right 0)
    have wrapped : ∀ l r : TypedCode, (l.firstPresent r).storage.isRaw = false := by
      intro l r
      rw [TypedCode.firstPresent]
      split <;> rfl
    rw [computed.eagerWraps_eq, TypedCode.resolved_isRaw, wrapped]
    exact Nat.zero_le _
  | choose span condition yes no _ ihYes _ =>
    have computed : setting.EagerCode (.choose span condition yes no) _ :=
      .choose (setting.eager_code condition 0) (setting.eager_code yes 0) (setting.eager_code no 0)
    rw [computed.eagerWraps_eq, TypedCode.resolved_isRaw]
    split
    · rename_i raw
      have one : setting.eagerWraps yes = 1 := if_pos (Storage.merge_isRaw raw)
      calc 1 = setting.eagerWraps yes := one.symm
        _ ≤ setting.wraps .general yes := ihYes
        _ ≤ setting.wraps .general yes + setting.wraps .general no := Nat.le_add_right _ _
    · exact Nat.zero_le _
  | _ => exact Nat.le_refl _

/-- The general mode wraps the most: each side of a lazy choice wraps its own value. -/
theorem wraps_le_general (e : Expr) : setting.wraps mode e ≤ setting.wraps .general e := by
  induction e with
  | coalesce span left right ihFirst ihSecond | choose span condition left right _ ihFirst ihSecond =>
    rw [wraps]
    split
    · exact Nat.add_le_add ihFirst ihSecond
    · exact eagerWraps_le_wraps _
  | _ => exact Nat.le_refl _

end Setting

theorem Mode.eq_or_general {wide narrow : Mode} (permits : wide.permitsAllOf narrow) :
    wide = narrow ∨ wide = .general := by
  cases wide <;> cases narrow <;> first | exact .inl rfl | exact .inr rfl | cases permits

namespace Setting

variable {setting : Setting}

/-- What can be lowered with some permissions can be lowered with more of them. The wider mode gives a handle too,
and wraps at least as much. -/
theorem lower_widens {wide narrow : Mode} (permits : wide.permitsAllOf narrow) {e : Expr} {next : Nat}
    {c : TypedCode}
    (lowered : (setting.lower? narrow e next).1 = some c) (next' : Nat) :
    ∃ c', (setting.lower? wide e next').1 = some c' ∧ c'.storage.isHandle ∧ c.code.boxes ≤ c'.code.boxes := by
  have given : (setting.lower? wide e next').1.isSome := by
    rcases Mode.eq_or_general permits with same | general
    · rw [same, lower_isSome_next e next' next, lowered, Option.isSome_some]
    · rw [general, lower_isSome rfl]
      rfl
  have most : setting.wraps narrow e ≤ setting.wraps wide e := by
    rcases Mode.eq_or_general permits with same | general
    · subst same
      exact Nat.le_refl _
    · rw [general]
      exact wraps_le_general e
  obtain ⟨c', lowered'⟩ := Option.isSome_iff_exists.mp given
  refine ⟨c', lowered', ?_, ?_⟩
  · have answered : setting.Answered wide e _ := setting.lower_answered e next'
    rw [lowered'] at answered
    cases answered with
    | code derived => exact derived.storage_isHandle
  · rw [lower_boxes lowered, lower_boxes lowered']
    exact most

/-- A conditional of two integers, wrapped once as a whole or at each of its branches. -/
theorem lower_widens_choice :
    let setting := static [] ["x"]
    let e : Expr := .choose .synthetic (.ref .synthetic .param "x") (.literal .synthetic (.int 1))
      (.literal .synthetic (.int 2))
    ∃ c c', (setting.lower? .avoidSuspension e 0).1 = some c ∧ (setting.lower? .general e 0).1 = some c' ∧
      c'.storage.isHandle ∧ c.code.boxes ≤ c'.code.boxes := by
  intro setting e
  obtain ⟨c', lowered, wider⟩ := @lower_widens setting .general .avoidSuspension rfl e 0 _ rfl 0
  exact ⟨_, c', rfl, lowered, wider⟩

end Setting

end LazyExpr
