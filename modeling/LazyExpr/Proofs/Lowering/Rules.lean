import LazyExpr.Lowering.Lower
import LazyExpr.Proofs.Induction
import Mathlib.Data.List.Forall2

namespace LazyExpr

namespace Setting

/-- The eager codes of an expression. They differ in where variables that may be pending are waited for and in
the numbers of the suspension points. -/
inductive EagerCode (setting : Setting) : Expr → TypedCode → Prop
  | null {span} : EagerCode setting (.null span) (.constant .null)
  | literal {span value} : EagerCode setting (.literal span value) (.constant value)
  | list {span items codes} : List.Forall₂ (EagerCode setting) items codes →
      EagerCode setting (.list span items) ⟨.list (codes.map TypedCode.code), .data .list⟩
  | read {span scope name} : ((setting.layout.provider scope name).storage == .deferred &&
      setting.mayWait (.ref span scope name)) = false →
      EagerCode setting (.ref span scope name) (setting.layout.provider scope name).resolved
  | readAwaited {span scope name point} : (setting.layout.provider scope name).storage = .deferred →
      EagerCode setting (.ref span scope name)
        (TypedCode.resolved ⟨.await (setting.layout.provider scope name).code point, .deferred⟩)
  | field {span base name safe b} : EagerCode setting base b →
      EagerCode setting (.field span base name safe) ⟨.field b.code name safe, .data .any⟩
  | index {span base key safe b k} : EagerCode setting base b → EagerCode setting key k →
      EagerCode setting (.index span base key safe) ⟨.index b.code k.code safe, .data .any⟩
  | coalesce {span left right l r} : EagerCode setting left l → EagerCode setting right r →
      EagerCode setting (.coalesce span left right) (l.firstPresent r).resolved
  | choose {span condition yes no c y n} : EagerCode setting condition c → EagerCode setting yes y →
      EagerCode setting no n →
      EagerCode setting (.choose span condition yes no) (TypedCode.ternary c y n).resolved
  | binary {span op left right l r} : EagerCode setting left l → EagerCode setting right r →
      EagerCode setting (.binary span op left right)
        ⟨.binary op l.code r.code, op.resultStorage l.storage r.storage⟩
  | unary {span op operand c} : EagerCode setting operand c →
      EagerCode setting (.unary span op operand) ⟨.unary op c.code, op.unaryStorage c.storage⟩
  | call {span name args codes} : List.Forall₂ (EagerCode setting) args codes →
      EagerCode setting (.call span name args) ⟨.call name (codes.map TypedCode.code), .data .any⟩

/-- Whether `??` and `?:` could select a handle that the expression does not have to make. -/
def offersHandle (setting : Setting) : Expr → Bool
  | .null _ => true
  | .ref _ scope name => !(setting.layout.provider scope name).storage.isRaw
  | .coalesce _ left right => setting.offersHandle left || setting.offersHandle right
  | .choose _ _ yes no => setting.offersHandle yes || setting.offersHandle no
  | _ => false

/-- What waiting for the left operand of `??` makes of its code. -/
inductive Awaited (setting : Setting) (left : Expr) : TypedCode → TypedCode → Prop
  | unneeded {c} : setting.mayWait left = false → Awaited setting left c c
  | present {c} : c.storage.isPresent → Awaited setting left c c
  | waits {c point} : c.storage.isPresent = false → Awaited setting left c ⟨.await c.code point, c.storage⟩

/-- The codes that yield a handle for an expression. Computed values are wrapped where no handle could be
passed on, and wherever suspension is not permitted. -/
inductive HandleCode (setting : Setting) (mode : Mode) : Expr → TypedCode → Prop
  | null {span} : HandleCode setting mode (.null span) .nullProvider
  | provider {span scope name} : (setting.layout.provider scope name).storage.isRaw = false →
      HandleCode setting mode (.ref span scope name) (setting.layout.provider scope name)
  | boxed {e c} : setting.EagerCode e c → (mode.allowsSuspension → setting.offersHandle e = false) →
      HandleCode setting mode e c.boxed
  | coalesce {span left right l l' r} : HandleCode setting mode left l → HandleCode setting mode right r →
      setting.Awaited left l l' → HandleCode setting mode (.coalesce span left right) (l'.firstPresent r)
  | choose {span condition yes no c y n} : setting.EagerCode condition c → HandleCode setting mode yes y →
      HandleCode setting mode no n →
      HandleCode setting mode (.choose span condition yes no) (TypedCode.ternary c y n)

/-- Induction over the derivations of eager code, with one hypothesis for all operands of a list or of a call at
once. -/
@[elab_as_elim, induction_eliminator]
theorem EagerCode.inductionOn {setting : Setting} {motive : ∀ e c, setting.EagerCode e c → Prop}
    (null : ∀ span, motive (.null span) _ .null)
    (literal : ∀ span value, motive (.literal span value) _ .literal)
    (list : ∀ span items codes (each : List.Forall₂ setting.EagerCode items codes),
      List.Forall₂ (fun e c => ∃ h, motive e c h) items codes → motive (.list span items) _ (.list each))
    (read : ∀ span scope name settled, motive (.ref span scope name) _ (.read settled))
    (readAwaited : ∀ span scope name point deferred,
      motive (.ref span scope name) (.resolved ⟨.await _ point, .deferred⟩) (.readAwaited deferred))
    (field : ∀ span base name safe b (hb : setting.EagerCode base b), motive base b hb →
      motive (.field span base name safe) _ (.field hb))
    (index : ∀ span base key safe b k (hb : setting.EagerCode base b) (hk : setting.EagerCode key k),
      motive base b hb → motive key k hk → motive (.index span base key safe) _ (.index hb hk))
    (coalesce : ∀ span left right l r (hl : setting.EagerCode left l) (hr : setting.EagerCode right r),
      motive left l hl → motive right r hr → motive (.coalesce span left right) _ (.coalesce hl hr))
    (choose : ∀ span condition yes no c y n (hc : setting.EagerCode condition c) (hy : setting.EagerCode yes y)
      (hn : setting.EagerCode no n), motive condition c hc → motive yes y hy → motive no n hn →
      motive (.choose span condition yes no) _ (.choose hc hy hn))
    (binary : ∀ span op left right l r (hl : setting.EagerCode left l) (hr : setting.EagerCode right r),
      motive left l hl → motive right r hr → motive (.binary span op left right) _ (.binary hl hr))
    (unary : ∀ span op operand c (hc : setting.EagerCode operand c), motive operand c hc →
      motive (.unary span op operand) _ (.unary hc))
    (call : ∀ span name args codes (each : List.Forall₂ setting.EagerCode args codes),
      List.Forall₂ (fun e c => ∃ h, motive e c h) args codes → motive (.call span name args) _ (.call each))
    {e : Expr} {c : TypedCode} (h : setting.EagerCode e c) : motive e c h :=
  @EagerCode.rec setting motive (fun es cs _ => List.Forall₂ (fun e c => ∃ h, motive e c h) es cs)
    (@fun span => null span) (@fun span value => literal span value)
    (@fun span items codes each ih => list span items codes each ih)
    (@fun span scope name settled => read span scope name settled)
    (@fun span scope name point deferred => readAwaited span scope name point deferred)
    (@fun span base name safe b hb ih => field span base name safe b hb ih)
    (@fun span base key safe b k hb hk ihb ihk => index span base key safe b k hb hk ihb ihk)
    (@fun span left right l r hl hr ihl ihr => coalesce span left right l r hl hr ihl ihr)
    (@fun span condition yes no c y n hc hy hn => choose span condition yes no c y n hc hy hn)
    (@fun span op left right l r hl hr ihl ihr => binary span op left right l r hl hr ihl ihr)
    (@fun span op operand c hc ih => unary span op operand c hc ih)
    (@fun span name args codes each ih => call span name args codes each ih)
    .nil (@fun _ _ _ _ first _ ihFirst ihOthers => .cons ⟨first, ihFirst⟩ ihOthers) e c h

variable {setting : Setting}

/-- Eager code gives a value, never a handle that may be pending. -/
theorem EagerCode.storage_ne_deferred {e : Expr} {c : TypedCode} (derived : setting.EagerCode e c) :
    c.storage ≠ .deferred := by
  have resolved : ∀ c : TypedCode, c.resolved.storage ≠ .deferred := by
    rintro ⟨code, storage⟩
    cases storage <;> simp [TypedCode.resolved]
  cases derived with
  | null | list _ | field _ | index _ _ | call _ => simp [TypedCode.constant, Storage.ofLiteral]
  | @literal span value => cases value <;> simp [TypedCode.constant, Storage.ofLiteral]
  | read _ | readAwaited _ | coalesce _ _ | choose _ _ _ => exact resolved _
  | binary _ _ =>
    simp only [Operator.resultStorage]
    split_ifs <;> simp
  | unary _ =>
    simp only [Operator.unaryStorage]
    split_ifs with _ raw
    · simp
    · intro deferred
      rw [deferred] at raw
      cases raw
    · simp

theorem EagerCode.boxed_isPresent {e : Expr} {c : TypedCode} (derived : setting.EagerCode e c) :
    c.boxed.storage.isPresent := by
  have settled := derived.storage_ne_deferred
  obtain ⟨code, storage⟩ := c
  cases storage with
  | deferred => exact absurd rfl settled
  | _ => rfl

end Setting

end LazyExpr
