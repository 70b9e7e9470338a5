import LazyExpr.Lowering.Eager
import LazyExpr.Lowering.Mode

namespace LazyExpr

namespace Setting

/-- Eager code, wrapped. It is tried without suspension first. -/
def lowerGeneric? (setting : Setting) (mode : Mode) (e : Expr) : StateM Nat (Option TypedCode) := do
  if mode.allowsBoxing then
    match setting.eagerWithoutSuspension? e with
    | some code => pure (some code.boxed)
    | none =>
      if mode.allowsSuspension then
        let code ← setting.eager e
        pure (some code.boxed)
      else pure none
  else pure none

/-- The code of an operand: what its own lowering gave, or else wrapped eager code. -/
def orEager (setting : Setting) (e : Expr) : Option TypedCode → StateM Nat TypedCode
  | some code => pure code
  | none => do
    let code ← setting.eager e
    pure code.boxed

/-- The left operand of `??` has to be ready before it can be looked at. -/
def awaited (setting : Setting) (e : Expr) : Option TypedCode → StateM Nat TypedCode
  | some code => if setting.mayWait e then waitFor code else pure code
  | none => setting.orEager e none

/-- Code that yields a handle for the expression, unless the mode does not permit what that takes. The
shared null, parameters and locals are handles already. Where suspension is permitted, `??` and `?:` pass
on the handle of the side that is taken, as long as one side has a handle without wrapping. -/
def lower? (setting : Setting) (mode : Mode) : Expr → StateM Nat (Option TypedCode)
  | .null _ => pure (some .nullProvider)
  | .ref _ scope name =>
    let provider := setting.layout.provider scope name
    if provider.storage.isRaw then
      pure (if mode.allowsBoxing then some provider.boxed else none)
    else pure (some provider)
  | .coalesce span left right =>
    if mode.allowsSuspension then do
      let lazyLeft ← setting.lower? mode left
      let lazyRight ← setting.lower? mode right
      if lazyLeft.isNone && lazyRight.isNone then
        setting.lowerGeneric? mode (.coalesce span left right)
      else do
        let rightCode ← setting.orEager right lazyRight
        let leftCode ← setting.awaited left lazyLeft
        pure (some (leftCode.firstPresent rightCode))
    else setting.lowerGeneric? mode (.coalesce span left right)
  | .choose span condition yes no =>
    if mode.allowsSuspension then do
      let lazyYes ← setting.lower? mode yes
      let lazyNo ← setting.lower? mode no
      if lazyYes.isNone && lazyNo.isNone then pure none
      else do
        let conditionCode ← setting.eager condition
        let yesCode ← setting.orEager yes lazyYes
        let noCode ← setting.orEager no lazyNo
        pure (some (TypedCode.ternary conditionCode yesCode noCode))
    else setting.lowerGeneric? mode (.choose span condition yes no)
  | e => setting.lowerGeneric? mode e

/-- Code that yields a handle, whatever it takes. -/
def compile (setting : Setting) (e : Expr) : StateM Nat TypedCode := do
  let code ← setting.lower? .general e
  setting.orEager e code

/-- How a print site emits its expression: by streaming a handle, or by printing a computed value. -/
inductive PrintPlan
  | stream (code : TypedCode)
  | value (code : TypedCode)

def PrintPlan.code : PrintPlan → TypedCode
  | stream code | value code => code

def PrintPlan.isStream : PrintPlan → Bool
  | stream _ => true
  | value _ => false

/-- A print site streams where it can. -/
def lowerPrint (setting : Setting) (e : Expr) : StateM Nat PrintPlan := do
  match ← setting.lower? .preserveStreaming e with
  | some code => pure (.stream code)
  | none =>
    let code ← setting.eager e
    pure (.value code)

/-- A binding keeps a handle without waiting where it can, and else wraps a computed value. -/
def lowerBinding (setting : Setting) (e : Expr) : StateM Nat TypedCode := do
  let code ← setting.lower? .avoidSuspension e
  setting.orEager e code

end Setting

end LazyExpr
