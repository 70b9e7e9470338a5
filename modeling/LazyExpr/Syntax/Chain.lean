import LazyExpr.Tree.Operator

namespace LazyExpr

/-- The next operator takes the right operand of `op` for itself: it binds tighter than `op`, or just as
tightly and groups to the right. -/
def Operator.yieldsTo (op next : Operator) : Bool :=
  op.level < next.level || (next.level == op.level && next.associativity == .right)

/-- How tightly operators have to bind to go with the next operator into the right operand of `op`. -/
def Operator.floor (op next : Operator) : Level :=
  if op.level < next.level then op.level + 1 else op.level

mutual

/-- Groups a chain of operators and operands, with `join` building the nodes. Operators that bind less
tightly than `least` are left to the caller. A run over the whole chain needs no more fuel than twice the
operators of the chain. -/
def climb {α : Type} (join : Operator → α → α → α) :
    Nat → Level → α → List (Operator × α) → α × List (Operator × α)
  | 0, _, left, chain => (left, chain)
  | _ + 1, _, left, [] => (left, [])
  | fuel + 1, least, left, (op, right) :: chain =>
    if least ≤ op.level then
      let (right, rest) := climbRight join fuel op right chain
      climb join fuel least (join op left right) rest
    else (left, (op, right) :: chain)

/-- Lets the right operand of `op` grow over the operators that it yields to. -/
def climbRight {α : Type} (join : Operator → α → α → α) :
    Nat → Operator → α → List (Operator × α) → α × List (Operator × α)
  | 0, _, right, chain => (right, chain)
  | _ + 1, _, right, [] => (right, [])
  | fuel + 1, op, right, (next, operand) :: chain =>
    if op.yieldsTo next then
      let (right, rest) := climb join fuel (op.floor next) right ((next, operand) :: chain)
      climbRight join fuel op right rest
    else (right, (next, operand) :: chain)

end

/-- The tree of a chain of operators and operands. -/
def group {α : Type} (join : Operator → α → α → α) (first : α) (chain : List (Operator × α)) : α :=
  (climb join (2 * chain.length) .lowest first chain).1

end LazyExpr
