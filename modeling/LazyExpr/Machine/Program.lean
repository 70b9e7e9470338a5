import LazyExpr.Lowering.Code

namespace LazyExpr

/-- Instructions work on numbered registers; the first register is the one written. `await` copies its
source once that is ready and is the only place where a run can be detached. -/
inductive Instr
  | loadNull (dst : Nat)
  | loadConst (dst : Nat) (value : Value)
  | loadParam (dst : Nat) (name : String)
  | loadBinding (dst : Nat) (name : String)
  | box (dst src : Nat)
  | await (dst src point : Nat)
  | resolve (dst src : Nat)
  | truthy (dst src : Nat)
  | binary (dst : Nat) (op : Operator) (left right : Nat)
  | unary (dst : Nat) (op : Operator) (src : Nat)
  | field (dst base : Nat) (name : String) (safe : Bool)
  | index (dst base key : Nat) (safe : Bool)
  | list (dst : Nat) (items : List Nat)
  | call (dst : Nat) (name : String) (args : List Nat)
  | jumpIfPresent (src target : Nat)
  | jumpIfFalse (condition target : Nat)
  | jump (target : Nat)
  deriving Inhabited

/-- Instructions in a row. The result is what register 0 holds when they have run. -/
structure Program where
  instrs : List Instr
  registers : Nat
  storage : Storage
  deriving Inhabited

namespace Code

mutual

/-- The instructions that leave the result of the code in register `dst`, when they are placed at index
`start` and may use the registers from `next` on. The number of the first register that is still unused
comes with them. Both sides of a branch leave their result in `dst`, operands have registers of their
own. -/
def emit : Code → Nat → Nat → Nat → List Instr × Nat
  | nullHandle, _, next, dst => ([.loadNull dst], next)
  | const value, _, next, dst => ([.loadConst dst value], next)
  | param name, _, next, dst => ([.loadParam dst name], next)
  | binding name, _, next, dst => ([.loadBinding dst name], next)
  | box inner, start, next, dst =>
    let (code, free) := emit inner start (next + 1) next
    (code ++ [.box dst next], free)
  | await provider point, start, next, dst =>
    let (code, free) := emit provider start (next + 1) next
    (code ++ [.await dst next point], free)
  | resolve inner, start, next, dst =>
    let (code, free) := emit inner start (next + 1) next
    (code ++ [.resolve dst next], free)
  | truthy inner, start, next, dst =>
    let (code, free) := emit inner start (next + 1) next
    (code ++ [.truthy dst next], free)
  | firstPresent left right, start, next, dst =>
    let (leftCode, middle) := emit left start next dst
    let rightStart := start + leftCode.length + 1
    let (rightCode, free) := emit right rightStart middle dst
    (leftCode ++ [.jumpIfPresent dst (rightStart + rightCode.length)] ++ rightCode, free)
  | ternary condition yes no, start, next, dst =>
    let (conditionCode, second) := emit condition start (next + 1) next
    let yesStart := start + conditionCode.length + 1
    let (yesCode, third) := emit yes yesStart second dst
    let noStart := yesStart + yesCode.length + 1
    let (noCode, free) := emit no noStart third dst
    (conditionCode ++ [.jumpIfFalse next noStart] ++ yesCode ++ [.jump (noStart + noCode.length)] ++ noCode,
      free)
  | binary op left right, start, next, dst =>
    let (leftCode, middle) := emit left start (next + 1) next
    let (rightCode, free) := emit right (start + leftCode.length) (middle + 1) middle
    (leftCode ++ rightCode ++ [.binary dst op next middle], free)
  | unary op operand, start, next, dst =>
    let (code, free) := emit operand start (next + 1) next
    (code ++ [.unary dst op next], free)
  | field base name safe, start, next, dst =>
    let (code, free) := emit base start (next + 1) next
    (code ++ [.field dst next name safe], free)
  | index base key safe, start, next, dst =>
    let (baseCode, middle) := emit base start (next + 1) next
    let (keyCode, free) := emit key (start + baseCode.length) (middle + 1) middle
    (baseCode ++ keyCode ++ [.index dst next middle safe], free)
  | list items, start, next, dst =>
    let (code, regs, free) := emitAll items start next
    (code ++ [.list dst regs], free)
  | call name args, start, next, dst =>
    let (code, regs, free) := emitAll args start next
    (code ++ [.call dst name regs], free)

/-- The instructions of operands in a row, with the registers that they leave their results in. -/
def emitAll : List Code → Nat → Nat → List Instr × List Nat × Nat
  | [], _, next => ([], [], next)
  | code :: rest, start, next =>
    let (first, middle) := emit code start (next + 1) next
    let (others, regs, free) := emitAll rest (start + first.length) middle
    (first ++ others, next :: regs, free)

end

end Code

namespace Program

/-- The program of a piece of code, with its result in register 0. -/
def assemble (c : TypedCode) : Program :=
  let (instrs, registers) := c.code.emit 0 1 0
  ⟨instrs, registers, c.storage⟩

/-- The suspension points in the order of the instructions. -/
def resumePoints (p : Program) : List Nat :=
  p.instrs.filterMap fun
    | .await _ _ point => some point
    | _ => none

end Program

end LazyExpr
