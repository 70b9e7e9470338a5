import LazyExpr.Machine.Host
import LazyExpr.Machine.Program

namespace LazyExpr

/-- Limits on a run: how many instructions a frame may execute in all its runs together, and whether it
heeds the flag that cancels it. -/
structure Options where
  maxInstructions : Option Nat := none
  cancellable : Bool := false
  deriving DecidableEq

def Options.diagnostic (o : Options) : String :=
  let limit := match o.maxInstructions with
    | some n => "Some(" ++ toString n ++ ")"
    | none => "None"
  "ExecOptions \x7b max_instructions: " ++ limit ++ ", cancellation_token: " ++
    (if o.cancellable then "true" else "false") ++ " \x7d"

/-- What a run finds around it and leaves as it is. -/
structure Scene where
  host : Host
  store : Store
  cancelled : Bool := false

/-- Registers that have not been written hold nothing. -/
abbrev Registers := List (Option Slot)

/-- A program under way: the index of the next instruction, the registers, the number of instructions
tried so far, and the suspension point at which it is detached. -/
structure Frame where
  pc : Nat := 0
  registers : Registers
  steps : Nat := 0
  suspended : Option Nat := none

/-- How a run ends unless it fails: with the result, or detached until a handle is ready. -/
inductive Halt
  | done (slot : Slot)
  | detached (point : Nat) (awaiting : Handle)

/-- What an instruction does to a frame. -/
inductive Action
  | write (dst : Nat) (slot : Slot)
  | goto (target : Nat)
  | proceed

/-- The end of a run. -/
structure Finish where
  result : Outcome Halt
  frame : Frame
  log : Log

/-- One instruction leads on to the next one or ends the run. -/
inductive Progress
  | running (frame : Frame) (log : Log)
  | stopped (finish : Finish)

namespace Registers

def read (regs : Registers) (r : Nat) : Outcome Slot :=
  match regs[r]? with
  | some (some slot) => .ok slot
  | _ => .error (.unwritten r)

def readPlain (regs : Registers) (store : Store) (r : Nat) : Outcome Value := do
  let slot ← regs.read r
  slot.plain store

def readAll (regs : Registers) (store : Store) : List Nat → Outcome (List Value)
  | [] => .ok []
  | r :: rest => do
    let value ← regs.readPlain store r
    let values ← readAll regs store rest
    pure (value :: values)

def write (regs : Registers) (r : Nat) (slot : Slot) : Registers := regs.set r (some slot)

end Registers

/-- Writes a plain value that was computed. -/
def writeResult (dst : Nat) (result : Outcome Value) : Outcome Action :=
  result.map fun value => .write dst (.value value)

/-- Executes an instruction on the registers. Looking up a variable is an event even if it fails. -/
def Instr.execute (scene : Scene) (regs : Registers) (log : Log) : Instr → Outcome Action × Log
  | loadNull dst => (.ok (.write dst (.handle .null)), log)
  | loadConst dst value => (.ok (.write dst (.value value)), log)
  | loadParam dst name => ((scene.host.readParam log name).map (.write dst), log ++ [.param name])
  | loadBinding dst name => ((scene.host.readBinding log name).map (.write dst), log ++ [.binding name])
  | box dst src => ((regs.read src).map fun slot => .write dst (.handle slot.toHandle), log)
  | await dst src _ => ((regs.read src).map (.write dst), log)
  | resolve dst src => (writeResult dst (regs.readPlain scene.store src), log)
  | truthy dst src =>
    (writeResult dst ((regs.readPlain scene.store src).map fun v => .bool v.isTruthy), log)
  | binary dst op left right =>
    (writeResult dst (do
      let a ← regs.readPlain scene.store left
      let b ← regs.readPlain scene.store right
      op.applyBinary a b), log)
  | unary dst op src => (writeResult dst (regs.readPlain scene.store src >>= op.applyUnary), log)
  | field dst base name safe =>
    (writeResult dst (do
      let base ← regs.readPlain scene.store base
      base.field name safe), log)
  | index dst base key safe =>
    (writeResult dst (do
      let base ← regs.readPlain scene.store base
      let key ← regs.readPlain scene.store key
      base.index key safe), log)
  | list dst items => (writeResult dst ((regs.readAll scene.store items).map .list), log)
  | call dst name args =>
    match regs.readAll scene.store args with
    | .ok values =>
      let (result, log) := scene.host.registry.call log name values
      (writeResult dst result, log)
    | .error failure => (.error failure, log)
  | jumpIfPresent src target =>
    (do
      let slot ← regs.read src
      let present ← slot.isPresent scene.store
      pure (if present then .goto target else .proceed), log)
  | jumpIfFalse condition target =>
    (do
      let value ← regs.readPlain scene.store condition
      pure (if value.isTruthy then .proceed else .goto target), log)
  | jump target => (.ok (.goto target), log)

namespace Frame

/-- A frame that has not run yet. -/
def fresh (p : Program) : Frame := { registers := List.replicate p.registers none }

def apply (f : Frame) : Action → Frame
  | .write dst slot => { f with registers := Registers.write f.registers dst slot, pc := f.pc + 1 }
  | .goto target => { f with pc := target }
  | .proceed => { f with pc := f.pc + 1 }

/-- What stands in the way of the next instruction. The limit comes before the flag. -/
def obstacle? (o : Options) (cancelled : Bool) (steps : Nat) : Option Failure :=
  match o.maxInstructions with
  | some limit =>
    if limit < steps then some (.tooManyInstructions limit)
    else if o.cancellable && cancelled then some .cancelled
    else none
  | none => if o.cancellable && cancelled then some .cancelled else none

/-- At a suspension point the frame goes on if the awaited slot is ready and is detached otherwise. -/
def awaitSlot (scene : Scene) (f : Frame) (log : Log) (dst src point : Nat) : Progress :=
  match Registers.read f.registers src with
  | .error failure => .stopped ⟨.error failure, f, log⟩
  | .ok slot =>
    match slot.pending? scene.store with
    | some h => .stopped ⟨.ok (.detached point h), { f with suspended := some point }, log⟩
    | none => .running ({ f with suspended := none }.apply (.write dst slot)) log

/-- The result of a frame behind its last instruction. -/
def result (f : Frame) : Outcome Halt := (Registers.read f.registers 0).map .done

/-- Tries the next instruction, which counts even if it fails. A failure leaves everything but that count
as it was. -/
def step (p : Program) (o : Options) (scene : Scene) (f : Frame) (log : Log) : Progress :=
  match p.instrs[f.pc]? with
  | none => .stopped ⟨f.result, f, log⟩
  | some instr =>
    let f := { f with steps := f.steps + 1 }
    match obstacle? o scene.cancelled f.steps with
    | some failure => .stopped ⟨.error failure, f, log⟩
    | none =>
      match instr with
      | .await dst src point => f.awaitSlot scene log dst src point
      | instr =>
        match instr.execute scene f.registers log with
        | (.ok action, log) => .running (f.apply action) log
        | (.error failure, log) => .stopped ⟨.error failure, f, log⟩

/-- Runs for at most `fuel` instructions. -/
def runFor (p : Program) (o : Options) (scene : Scene) : Nat → Frame → Log → Finish
  | 0, f, log => ⟨.error (.tooManyInstructions f.steps), f, log⟩
  | fuel + 1, f, log =>
    match f.step p o scene log with
    | .running f log => runFor p o scene fuel f log
    | .stopped finish => finish

/-- Programs whose jumps all lead forward execute each instruction at most once in a run. Others are cut
off after this many more. -/
def patience : Nat := UInt64.size

/-- Runs until the program is done, is detached or fails. A detached frame goes on at the same suspension
point, one that is done gives its result again. -/
def run (p : Program) (o : Options) (scene : Scene) (f : Frame) (log : Log) : Finish :=
  runFor p o scene (patience + p.instrs.length) f log

end Frame

end LazyExpr
