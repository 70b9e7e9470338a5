import LazyExpr.Proofs.Lowering.Derivation

namespace LazyExpr

namespace Code

mutual

/-- The code without its suspension points: what each of them waits for stands in its place. -/
def withoutAwaits : Code → Code
  | nullHandle => nullHandle
  | const value => const value
  | param name => param name
  | binding name => binding name
  | box inner => box (withoutAwaits inner)
  | await provider _ => withoutAwaits provider
  | resolve inner => resolve (withoutAwaits inner)
  | firstPresent left right => firstPresent (withoutAwaits left) (withoutAwaits right)
  | ternary condition yes no => ternary (withoutAwaits condition) (withoutAwaits yes) (withoutAwaits no)
  | truthy inner => truthy (withoutAwaits inner)
  | binary op left right => binary op (withoutAwaits left) (withoutAwaits right)
  | unary op operand => unary op (withoutAwaits operand)
  | field base name safe => field (withoutAwaits base) name safe
  | index base key safe => index (withoutAwaits base) (withoutAwaits key) safe
  | list items => list (withoutAwaitsOfAll items)
  | call name args => call name (withoutAwaitsOfAll args)

def withoutAwaitsOfAll : List Code → List Code
  | [] => []
  | code :: rest => withoutAwaits code :: withoutAwaitsOfAll rest

end

end Code

namespace TypedCode

def withoutAwaits (c : TypedCode) : TypedCode := ⟨c.code.withoutAwaits, c.storage⟩

@[simp]
theorem withoutAwaits_resolved (c : TypedCode) : c.resolved.withoutAwaits = c.withoutAwaits.resolved := by
  obtain ⟨code, storage⟩ := c
  cases storage <;> rfl

@[simp]
theorem withoutAwaits_boxed (c : TypedCode) : c.boxed.withoutAwaits = c.withoutAwaits.boxed := by
  obtain ⟨code, storage⟩ := c
  cases storage <;> rfl

@[simp]
theorem withoutAwaits_intoBranch (c : TypedCode) : c.intoBranch.withoutAwaits = c.withoutAwaits.intoBranch := by
  obtain ⟨code, storage⟩ := c
  cases storage <;> rfl

@[simp]
theorem withoutAwaits_firstPresent (left right : TypedCode) :
    (left.firstPresent right).withoutAwaits = left.withoutAwaits.firstPresent right.withoutAwaits := rfl

@[simp]
theorem withoutAwaits_ternary (condition yes no : TypedCode) : (ternary condition yes no).withoutAwaits =
    ternary condition.withoutAwaits yes.withoutAwaits no.withoutAwaits := by
  rw [ternary, ternary, ← withoutAwaits_intoBranch]
  rfl

end TypedCode

def Setting.PrintPlan.withoutAwaits : Setting.PrintPlan → Setting.PrintPlan
  | stream code => stream code.withoutAwaits
  | value code => value code.withoutAwaits

/-- The two computations cannot be told apart by this view of their results, whatever numbers are free. -/
def Alike {α γ : Type} (view : α → γ) (x y : StateM Nat α) : Prop :=
  ∀ next next', view (x next).1 = view (y next').1

namespace Alike

variable {α β γ δ : Type} {view : α → γ} {view' : β → δ} {x y z : StateM Nat α}

theorem pure {a b : α} (same : view a = view b) : Alike view (pure a) (pure b) := fun _ _ => same

theorem bind {k l : α → StateM Nat β} (first : Alike view x y)
    (rest : ∀ a b, view a = view b → Alike view' (k a) (l b)) : Alike view' (x >>= k) (y >>= l) :=
  fun next next' => rest _ _ (first next next') _ _

theorem symm (alike : Alike view x y) : Alike view y x := fun next next' => (alike next' next).symm

theorem trans (first : Alike view x y) (second : Alike view y z) : Alike view x z :=
  fun next next' => (first next next).trans (second next next')

end Alike

theorem waitFor_withoutAwaits (provider : TypedCode) (next : Nat) :
    (waitFor provider next).1.withoutAwaits = provider.withoutAwaits := by
  unfold waitFor
  split <;> rfl

namespace Setting

variable {setting other : Setting} {mode : Mode}

theorem readWith_withoutAwaits (setting : Setting) (e : Expr) (provider : TypedCode) (next : Nat) :
    (setting.readWith waitFor e provider next).1.withoutAwaits = provider.resolved.withoutAwaits := by
  unfold readWith
  split
  · change (waitFor provider next).1.resolved.withoutAwaits = _
    rw [TypedCode.withoutAwaits_resolved, waitFor_withoutAwaits, TypedCode.withoutAwaits_resolved]
  · rfl

theorem eagerAll_alike {items : List Expr} (each : ∀ e ∈ items,
      Alike TypedCode.withoutAwaits (setting.eager e) (other.eager e.withoutSpans)) :
    Alike Code.withoutAwaitsOfAll (setting.eagerAllWith waitFor items)
      (other.eagerAllWith waitFor (Expr.listWithoutSpans items)) := by
  induction items with
  | nil => exact .pure rfl
  | cons e rest ih =>
    rw [Expr.listWithoutSpans, eagerAllWith, eagerAllWith]
    refine (each e List.mem_cons_self).bind fun c c' first => ?_
    refine (ih fun e member => each e (List.mem_cons_of_mem _ member)).bind fun codes codes' others => .pure ?_
    rw [Code.withoutAwaitsOfAll, Code.withoutAwaitsOfAll, others]
    exact congrArg (fun c : TypedCode => c.code :: _) first

/-- But for waits, eager code depends on how variables are stored and not on what is known to be ready, and the
nodes are not told apart by their spans. -/
theorem eager_alike (layouts : setting.layout = other.layout) (e : Expr) :
    Alike TypedCode.withoutAwaits (setting.eager e) (other.eager e.withoutSpans) := by
  unfold eager
  induction e with
  | null | literal => exact .pure rfl
  | list span items ih =>
    rw [Expr.withoutSpans, eagerWith, eagerWith]
    exact (eagerAll_alike ih).bind fun codes codes' same =>
      .pure (congrArg (fun codes => (⟨.list codes, .data .list⟩ : TypedCode)) same)
  | ref span scope name =>
    rw [Expr.withoutSpans, eagerWith, eagerWith, layouts]
    exact fun next next' => (readWith_withoutAwaits ..).trans (readWith_withoutAwaits ..).symm
  | field span base name safe ih =>
    rw [Expr.withoutSpans, eagerWith, eagerWith]
    exact ih.bind fun b b' same =>
      .pure (congrArg (fun b : TypedCode => (⟨.field b.code name safe, .data .any⟩ : TypedCode)) same)
  | index span base key safe ihBase ihKey =>
    rw [Expr.withoutSpans, eagerWith, eagerWith]
    exact ihBase.bind fun b b' base => ihKey.bind fun k k' key =>
      .pure (congrArg₂ (fun b k : TypedCode => (⟨.index b.code k.code safe, .data .any⟩ : TypedCode)) base key)
  | coalesce span left right ihLeft ihRight =>
    rw [Expr.withoutSpans, eagerWith, eagerWith]
    exact ihLeft.bind fun l l' left => ihRight.bind fun r r' right => .pure (by simp [left, right])
  | choose span condition yes no ihCondition ihYes ihNo =>
    rw [Expr.withoutSpans, eagerWith, eagerWith]
    exact ihCondition.bind fun c c' condition => ihYes.bind fun y y' yes => ihNo.bind fun n n' no =>
      .pure (by simp [condition, yes, no])
  | binary span op left right ihLeft ihRight =>
    rw [Expr.withoutSpans, eagerWith, eagerWith]
    exact ihLeft.bind fun l l' left => ihRight.bind fun r r' right => .pure (congrArg₂ (fun l r : TypedCode =>
      (⟨.binary op l.code r.code, op.resultStorage l.storage r.storage⟩ : TypedCode)) left right)
  | unary span op operand ih =>
    rw [Expr.withoutSpans, eagerWith, eagerWith]
    exact ih.bind fun c c' same =>
      .pure (congrArg (fun c : TypedCode => (⟨.unary op c.code, op.unaryStorage c.storage⟩ : TypedCode)) same)
  | call span name args ih =>
    rw [Expr.withoutSpans, eagerWith, eagerWith]
    exact (eagerAll_alike ih).bind fun codes codes' same =>
      .pure (congrArg (fun codes => (⟨.call name codes, .data .any⟩ : TypedCode)) same)

theorem boxed_alike {c c' : TypedCode} (same : c.withoutAwaits = c'.withoutAwaits) :
    c.boxed.withoutAwaits = c'.boxed.withoutAwaits := by
  rw [TypedCode.withoutAwaits_boxed, TypedCode.withoutAwaits_boxed, same]

theorem orEager_alike (layouts : setting.layout = other.layout) (e : Expr) {a b : Option TypedCode}
    (same : a.map TypedCode.withoutAwaits = b.map TypedCode.withoutAwaits) :
    Alike TypedCode.withoutAwaits (setting.orEager e a) (other.orEager e.withoutSpans b) := by
  cases a with
  | some c =>
    cases b with
    | some c' => exact .pure (Option.some.inj same)
    | none => cases same
  | none =>
    cases b with
    | some c' => cases same
    | none => exact (eager_alike layouts e).bind fun c c' same => .pure (boxed_alike same)

/-- Whether the left operand of `??` is waited for shows in waits only. -/
theorem awaited_alike (layouts : setting.layout = other.layout) (e : Expr) {a b : Option TypedCode}
    (same : a.map TypedCode.withoutAwaits = b.map TypedCode.withoutAwaits) :
    Alike TypedCode.withoutAwaits (setting.awaited e a) (other.awaited e.withoutSpans b) := by
  have stripped : ∀ (setting : Setting) e c next,
      (setting.awaited e (some c) next).1.withoutAwaits = c.withoutAwaits := by
    intro setting e c next
    unfold awaited
    split
    · exact waitFor_withoutAwaits c next
    · rfl
  cases a with
  | some c =>
    cases b with
    | some c' => exact fun next next' => (stripped ..).trans ((Option.some.inj same).trans (stripped ..).symm)
    | none => cases same
  | none =>
    cases b with
    | some c' => cases same
    | none => exact orEager_alike layouts e rfl

/-- Wrapped eager code is the same whether or not it was found without suspension. -/
theorem lowerGeneric_eq (e : Expr) (next : Nat) : setting.lowerGeneric? mode e next =
    if mode.allowsBoxing && (mode.allowsSuspension || (setting.eagerWithoutSuspension? e).isSome) then
      (some (setting.eager e next).1.boxed, (setting.eager e next).2)
    else (none, next) := by
  have generic : setting.Generic mode e next _ := lowerGeneric_generic e next
  generalize setting.lowerGeneric? mode e next = answer at generic
  cases generic with
  | @ready c boxing found =>
    have same : setting.eager e next = (c, next) := congrFun (eagerWith_eq_pure waitFor found) next
    rw [boxing, found, same]
    simp
  | waits boxing suspension _ => rw [boxing, suspension]; rfl
  | declined refused =>
    cases boxing : mode.allowsBoxing with
    | false => rfl
    | true => rw [(refused boxing).1, (refused boxing).2]; rfl

theorem lowerGeneric_alike (layouts : setting.layout = other.layout) (suspension : mode.allowsSuspension)
    (e : Expr) :
    Alike (Option.map TypedCode.withoutAwaits) (setting.lowerGeneric? mode e)
      (other.lowerGeneric? mode e.withoutSpans) := by
  intro next next'
  rw [lowerGeneric_eq, lowerGeneric_eq, suspension, Bool.true_or, Bool.true_or, Bool.and_true]
  split
  · exact congrArg some (boxed_alike (eager_alike layouts e next next'))
  · rfl

theorem isNone_of_alike {a b : Option TypedCode}
    (same : a.map TypedCode.withoutAwaits = b.map TypedCode.withoutAwaits) : a.isNone = b.isNone := by
  rw [← Option.isNone_map (f := TypedCode.withoutAwaits), same, Option.isNone_map]

/-- Where suspension is permitted, lowering declines or makes the same code but for waits, whatever is known to be
ready. -/
theorem lower_alike (layouts : setting.layout = other.layout) (suspension : mode.allowsSuspension) (e : Expr) :
    Alike (Option.map TypedCode.withoutAwaits) (setting.lower? mode e) (other.lower? mode e.withoutSpans) := by
  induction e with
  | null => exact .pure rfl
  | ref span scope name =>
    rw [Expr.withoutSpans, lower?, lower?, layouts]
    exact fun _ _ => by split <;> rfl
  | coalesce span left right ihLeft ihRight =>
    rw [Expr.withoutSpans, lower?, lower?, if_pos suspension, if_pos suspension]
    refine ihLeft.bind fun a a' left => ihRight.bind fun b b' right => ?_
    -- Both sides decline in both runs or in neither, so that the runs go on in the same way.
    rw [isNone_of_alike left, isNone_of_alike right]
    split
    · exact lowerGeneric_alike layouts suspension (.coalesce span _ _)
    · refine (orEager_alike layouts _ right).bind fun r r' right => ?_
      refine (awaited_alike layouts _ left).bind fun l l' left => .pure ?_
      rw [Option.map_some, Option.map_some, TypedCode.withoutAwaits_firstPresent, left, right]
      rfl
  | choose span condition yes no _ ihYes ihNo =>
    rw [Expr.withoutSpans, lower?, lower?, if_pos suspension, if_pos suspension]
    refine ihYes.bind fun a a' yes => ihNo.bind fun b b' no => ?_
    rw [isNone_of_alike yes, isNone_of_alike no]
    split
    · exact .pure rfl
    · refine (eager_alike layouts condition).bind fun c c' condition => ?_
      refine (orEager_alike layouts _ yes).bind fun y y' yes => ?_
      refine (orEager_alike layouts _ no).bind fun n n' no => .pure ?_
      rw [Option.map_some, Option.map_some, TypedCode.withoutAwaits_ternary, condition, yes, no,
        ← TypedCode.withoutAwaits_ternary]
  | _ => exact lowerGeneric_alike layouts suspension _

theorem compile_alike (layouts : setting.layout = other.layout) (e : Expr) :
    Alike TypedCode.withoutAwaits (setting.compile e) (other.compile e.withoutSpans) :=
  (lower_alike layouts rfl e).bind fun _ _ same => orEager_alike layouts e same

theorem lowerPrint_alike (layouts : setting.layout = other.layout) (e : Expr) :
    Alike PrintPlan.withoutAwaits (setting.lowerPrint e) (other.lowerPrint e.withoutSpans) := by
  refine (lower_alike layouts rfl e).bind fun a b same => ?_
  cases a with
  | some c =>
    cases b with
    | some c' => exact .pure (congrArg PrintPlan.stream (Option.some.inj same))
    | none => cases same
  | none =>
    cases b with
    | some c' => cases same
    | none => exact (eager_alike layouts e).bind fun c c' same => .pure (congrArg PrintPlan.value same)

/-- What is known to be ready decides whether suspension can be avoided. If it cannot, the code that is made instead
differs in waits only. -/
theorem lowerBinding_alike (layouts : setting.layout = other.layout) (e : Expr) :
    Alike TypedCode.withoutAwaits (setting.lowerBinding e) (other.lowerBinding e.withoutSpans) := by
  have computed : ∀ (setting : Setting) e next,
      ((setting.lowerGeneric? .avoidSuspension e >>= setting.orEager e) next).1 =
        (setting.eager e next).1.boxed := by
    intro setting e next
    have after : (setting.lowerGeneric? .avoidSuspension e >>= setting.orEager e) next =
      setting.orEager e (setting.lowerGeneric? .avoidSuspension e next).1
        (setting.lowerGeneric? .avoidSuspension e next).2 := rfl
    rw [after, lowerGeneric_eq]
    split <;> rfl
  have generic : ∀ e : Expr, Alike TypedCode.withoutAwaits
      (setting.lowerGeneric? .avoidSuspension e >>= setting.orEager e)
      (other.lowerGeneric? .avoidSuspension e.withoutSpans >>= other.orEager e.withoutSpans) := by
    intro e next next'
    rw [computed, computed]
    exact boxed_alike (eager_alike layouts e next next')
  cases e with
  | null => exact .pure rfl
  | ref span scope name =>
    rw [Expr.withoutSpans, lowerBinding, lowerBinding, lower?, lower?, layouts]
    exact fun _ _ => by split <;> rfl
  | _ => exact generic _

/-- What is known to be ready decides only where waits go. Two settings that store variables in the same way make
the same code for an expression, of the same storage and of the same kind of plan, or decline it both, once each
suspension point is replaced by what it waits for. Nodes are told apart by their spans, so that these may differ
too: the settings can answer as they like at each node. -/
theorem lower_settles_waits {e e' : Expr} (same : e.withoutSpans = e'.withoutSpans) (layout : Layout)
    (mayWait mayWait' : Expr → Bool) (next next' : Nat) :
    let setting : Setting := ⟨layout, mayWait⟩
    let other : Setting := ⟨layout, mayWait'⟩
    (setting.compile e next).1.withoutAwaits = (other.compile e' next').1.withoutAwaits ∧
    (setting.lower? .preserveStreaming e next).1.map TypedCode.withoutAwaits =
      (other.lower? .preserveStreaming e' next').1.map TypedCode.withoutAwaits ∧
    (setting.lowerPrint e next).1.withoutAwaits = (other.lowerPrint e' next').1.withoutAwaits ∧
    (setting.lowerBinding e next).1.withoutAwaits = (other.lowerBinding e' next').1.withoutAwaits ∧
    (setting.eager e next).1.withoutAwaits = (other.eager e' next').1.withoutAwaits := by
  intro setting other
  have both : ∀ {α γ : Type} {view : α → γ} {lower : Setting → Expr → StateM Nat α},
      (∀ setting : Setting, setting.layout = layout → ∀ e, Alike view (lower setting e)
        (lower ⟨layout, fun _ => false⟩ e.withoutSpans)) → Alike view (lower setting e) (lower other e') := by
    intro α γ view lower alike
    have second := alike other rfl e'
    rw [← same] at second
    exact (alike setting rfl e).trans second.symm
  exact ⟨both (fun _ layouts => compile_alike layouts) next next',
    both (fun _ layouts => lower_alike layouts rfl) next next',
    both (fun _ layouts => lowerPrint_alike layouts) next next',
    both (fun _ layouts => lowerBinding_alike layouts) next next',
    both (fun _ layouts => eager_alike layouts) next next'⟩

/-- A parameter behind a parameter, of which the second is known to be ready in one place and the first in the
other. -/
theorem lower_settles_waits_fallback :
    let e (span : Span) : Expr := .coalesce .synthetic (.ref .synthetic .param "x") (.ref span .param "y")
    let setting : Setting := ⟨[], Expr.requiresSuspension ["x"]⟩
    let other : Setting := ⟨[], fun e => e.span == .synthetic⟩
    (setting.lowerBinding (e .synthetic) 0).1.withoutAwaits = (other.lowerBinding (e ⟨3, 5⟩) 7).1.withoutAwaits ∧
      (setting.lowerBinding (e .synthetic) 0).1 ≠ (other.lowerBinding (e ⟨3, 5⟩) 7).1 := by
  intro e setting other
  obtain ⟨_, _, _, binding, _⟩ :=
    @lower_settles_waits (e .synthetic) (e ⟨3, 5⟩) rfl [] setting.mayWait other.mayWait 0 7
  refine ⟨binding, fun same => ?_⟩
  have waits := congrArg (fun c : TypedCode => c.code.points) same
  cases waits

end Setting

end LazyExpr
