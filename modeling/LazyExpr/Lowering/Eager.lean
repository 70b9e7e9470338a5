import LazyExpr.Lowering.Setting

namespace LazyExpr

/-- The storage of the result of a binary operator. Only bare numbers give bare numbers. -/
def Operator.resultStorage (op : Operator) (left right : Storage) : Storage :=
  let bothInt := left == .rawInt && right == .rawInt
  let bothNumbers := left.isRawNumber && right.isRawNumber
  if op.isComparison || op == .and || op == .or then .rawBool
  else if op == .divide && bothNumbers then .rawFloat
  else if op.isArithmetic && bothInt then .rawInt
  else if op.isArithmetic && bothNumbers then .rawFloat
  else if op.isBitwise && bothInt then .rawInt
  else .data .any

/-- A truth value for `!`, and for the other unary operators the bare scalar they are applied to. -/
def Operator.unaryStorage (op : Operator) (operand : Storage) : Storage :=
  if op == .not then .rawBool else if operand.isRaw then operand else .data .any

namespace Setting

/-- Reads a variable to a plain value. If it may be pending, `wait` decides what happens. -/
def readWith {m : Type → Type} [Monad m] (setting : Setting) (wait : TypedCode → m TypedCode) (e : Expr)
    (provider : TypedCode) : m TypedCode :=
  if provider.storage == .deferred && setting.mayWait e then
    wait provider >>= fun handle => pure handle.resolved
  else pure provider.resolved

mutual

/-- Eager code computes the plain value of an expression. Each variable is resolved where it is read, so
no operand of another node is a handle. -/
def eagerWith {m : Type → Type} [Monad m] (setting : Setting) (wait : TypedCode → m TypedCode) :
    Expr → m TypedCode
  | .null _ => pure (.constant .null)
  | .literal _ value => pure (.constant value)
  | .list _ items => do
    let codes ← eagerAllWith setting wait items
    pure ⟨.list codes, .data .list⟩
  | .ref span scope name =>
    setting.readWith wait (.ref span scope name) (setting.layout.provider scope name)
  | .field _ base name safe => do
    let base ← eagerWith setting wait base
    pure ⟨.field base.code name safe, .data .any⟩
  | .index _ base key safe => do
    let base ← eagerWith setting wait base
    let key ← eagerWith setting wait key
    pure ⟨.index base.code key.code safe, .data .any⟩
  | .coalesce _ left right => do
    let left ← eagerWith setting wait left
    let right ← eagerWith setting wait right
    pure (left.firstPresent right).resolved
  | .choose _ condition yes no => do
    let condition ← eagerWith setting wait condition
    let yes ← eagerWith setting wait yes
    let no ← eagerWith setting wait no
    pure (TypedCode.ternary condition yes no).resolved
  | .binary _ op left right => do
    let left ← eagerWith setting wait left
    let right ← eagerWith setting wait right
    pure ⟨.binary op left.code right.code, op.resultStorage left.storage right.storage⟩
  | .unary _ op operand => do
    let operand ← eagerWith setting wait operand
    pure ⟨.unary op operand.code, op.unaryStorage operand.storage⟩
  | .call _ name args => do
    let codes ← eagerAllWith setting wait args
    pure ⟨.call name codes, .data .any⟩

def eagerAllWith {m : Type → Type} [Monad m] (setting : Setting) (wait : TypedCode → m TypedCode) :
    List Expr → m (List Code)
  | [] => pure []
  | e :: rest => do
    let first ← eagerWith setting wait e
    let others ← eagerAllWith setting wait rest
    pure (first.code :: others)

end

/-- Eager code with a suspension point at each variable that may be pending. -/
def eager (setting : Setting) (e : Expr) : StateM Nat TypedCode := setting.eagerWith waitFor e

/-- Eager code without any suspension point, if no variable may be pending. -/
def eagerWithoutSuspension? (setting : Setting) (e : Expr) : Option TypedCode :=
  setting.eagerWith (fun _ => none) e

end Setting

end LazyExpr
