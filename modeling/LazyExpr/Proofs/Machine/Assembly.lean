import LazyExpr.Proofs.Machine.Performance
import LazyExpr.Proofs.Machine.Readiness
import Mathlib.Data.List.Forall2

namespace LazyExpr

namespace Instr

theorem execute_jumpIfPresent (scene : Scene) (log : Log) (target : Nat) {regs : Registers} {src : Nat}
    {slot : Slot} (read : regs.read src = .ok slot) : (jumpIfPresent src target).execute scene regs log =
      ((slot.isPresent scene.store).map fun present => if present then .goto target else .proceed, log) := by
  simp only [execute, read]
  rfl

theorem execute_jumpIfFalse (scene : Scene) (log : Log) (target : Nat) {regs : Registers} {condition : Nat}
    {slot : Slot} (read : regs.read condition = .ok slot) : (jumpIfFalse condition target).execute scene regs log =
      ((slot.plain scene.store).map fun value => if value.isTruthy then .proceed else .goto target, log) := by
  simp only [execute, Registers.readPlain, read]
  rfl

end Instr

namespace Registers

theorem readAll_of_reads (store : Store) {regs : Registers} {rs : List Nat} {slots : List Slot}
    (reads : List.Forall₂ (fun r slot => regs.read r = .ok slot) rs slots) :
    regs.readAll store rs = slots.mapM (Slot.plain store) := by
  induction reads with
  | nil => rfl
  | cons read _ ih =>
    simp only [readAll, readPlain_of_read store read, ih, List.mapM_cons]

end Registers

namespace Code

open LazyExpr.Frame Narrated

variable {p : Program} {scene : Scene}

/-- Wherever its instructions are placed, a run over them goes as the evaluation of the code does. -/
def Realized (p : Program) (scene : Scene) (c : Code) : Prop :=
  ∀ start next dst f log, p.Places start (c.emit start next dst).1 → f.pc = start → dst < next →
    (c.emit start next dst).2 ≤ f.registers.length →
    Performs p scene f log (Delivers f (start + (c.emit start next dst).1.length) next dst) (c.evaluate scene log)

/-- Code without operands. -/
theorem Realized.ofLeaf {c : Code} (instr : Nat → Instr) (result : Narrated Failure Slot)
    (layout : ∀ start next dst, c.emit start next dst = ([instr dst], next))
    (evaluates : ∀ log, c.evaluate scene log = (result.adapt .failed) log)
    (ready : ∀ regs dst, (instr dst).waitsFor? scene.store regs = none)
    (executes : ∀ regs log dst, (instr dst).execute scene regs log =
      ((result log).1.map (.write dst), (result log).2)) : Realized p scene c := by
  intro start next dst f log places pc below room
  rw [layout] at places room ⊢
  rw [evaluates]
  have prepared : Prepared f start next f := ⟨pc, rfl, fun _ _ => rfl⟩
  exact prepared.performs (by omega) (Program.places_singleton.mp places) (ready _ _) (executes _ _ _)

/-- Operands go to a register of their own. -/
theorem Realized.operand {c : Code} (realized : Realized p scene c) {f : Frame} {start next : Nat} {log : Log}
    (places : p.Places start (c.emit start (next + 1) next).1) (pc : f.pc = start)
    (room : (c.emit start (next + 1) next).2 ≤ f.registers.length) :
    Performs p scene f log (Delivers f (start + (c.emit start (next + 1) next).1.length) (next + 1) next)
      (c.evaluate scene log) :=
  realized start (next + 1) next f log places pc (Nat.lt_succ_self next) room

/-- Code with one operand that an instruction looks at. -/
theorem Realized.withOperand {c inner : Code} (ih : Realized p scene inner) (instr : Nat → Nat → Instr)
    (result : Slot → Outcome Slot)
    (layout : ∀ start next dst, c.emit start next dst =
      ((inner.emit start (next + 1) next).1 ++ [instr dst next], (inner.emit start (next + 1) next).2))
    (evaluates : ∀ log, c.evaluate scene log =
      (inner.evaluate scene >>= fun slot => (ofOutcome (result slot)).adapt .failed) log)
    (ready : ∀ regs dst src, (instr dst src).waitsFor? scene.store regs = none)
    (executes : ∀ regs log dst src slot, Registers.read regs src = .ok slot →
      (instr dst src).execute scene regs log = ((result slot).map (.write dst), log)) : Realized p scene c := by
  intro start next dst f log places pc below room
  rw [layout] at places room ⊢
  simp only [Program.places_append, Program.places_singleton] at places
  simp only [List.length_append, List.length_singleton, ← Nat.add_assoc]
  have up := inner.next_le_emit start (next + 1) next
  rw [evaluates]
  refine (ih.operand places.1 pc room).bind fun slot g log' delivers => ?_
  exact delivers.prepared.performs (by omega) places.2 (ready _ _ _) (executes _ _ _ _ _ delivers.result)

/-- Code with two operands that are looked at when both are there. -/
theorem Realized.withOperands {c first second : Code} (ihFirst : Realized p scene first)
    (ihSecond : Realized p scene second) (instr : Nat → Nat → Nat → Instr) (result : Slot → Slot → Outcome Slot)
    (layout : ∀ start next dst, c.emit start next dst =
      let (firstCode, middle) := first.emit start (next + 1) next
      let (secondCode, free) := second.emit (start + firstCode.length) (middle + 1) middle
      (firstCode ++ secondCode ++ [instr dst next middle], free))
    (evaluates : ∀ log, c.evaluate scene log = (first.evaluate scene >>= fun a =>
      second.evaluate scene >>= fun b => (ofOutcome (result a b)).adapt .failed) log)
    (ready : ∀ regs dst a b, (instr dst a b).waitsFor? scene.store regs = none)
    (executes : ∀ regs log dst i j a b, Registers.read regs i = .ok a → Registers.read regs j = .ok b →
      (instr dst i j).execute scene regs log = ((result a b).map (.write dst), log)) : Realized p scene c := by
  intro start next dst f log places pc below room
  rw [layout] at places room ⊢
  simp only [Program.places_append, Program.places_singleton, List.length_append] at places
  simp only [List.length_append, List.length_singleton, ← Nat.add_assoc] at places room ⊢
  have up := first.next_le_emit start (next + 1) next
  have up' := second.next_le_emit (start + (first.emit start (next + 1) next).1.length)
    ((first.emit start (next + 1) next).2 + 1) (first.emit start (next + 1) next).2
  rw [evaluates]
  refine (ihFirst.operand places.1.1 pc (by omega)).bind fun a g log' atFirst => ?_
  refine (ihSecond.operand places.1.2 atFirst.pc (by rw [atFirst.size]; exact room)).bind
    fun b h log'' atSecond => ?_
  have prepared := atFirst.prepared.trans atSecond.prepared (by omega)
  have kept := atSecond.prepared.read (by omega) atFirst.result
  exact prepared.performs (by omega) places.2 (ready _ _ _ _) (executes _ _ _ _ _ _ _ kept atSecond.result)

theorem realized_await {provider : Code} {point : Nat} (ih : Realized p scene provider) :
    Realized p scene (.await provider point) := by
  intro start next dst f log places pc below room
  simp only [emit, Program.places_append, Program.places_singleton, List.length_append, List.length_singleton,
    ← Nat.add_assoc] at places room ⊢
  have up := provider.next_le_emit start (next + 1) next
  rw [evaluate]
  refine (ih.operand places.1 pc room).bind fun slot g log' delivers => ?_
  cases pending : slot.pending? scene.store with
  | none =>
    have ready : (Instr.await dst next point).waitsFor? scene.store g.registers = none := by
      simp only [Instr.waitsFor?, delivers.result, pending, Option.map_none]
    have executed : (Instr.await dst next point).execute scene g.registers log' =
        ((Except.ok slot).map (.write dst), log') := by
      simp only [Instr.execute, delivers.result]
    exact delivers.prepared.performs (by omega) places.2 ready executed
  | some awaiting =>
    have found := places.2
    rw [← delivers.pc] at found
    have waits : (Instr.await dst next point).waitsFor? scene.store g.registers = some (point, awaiting) := by
      simp only [Instr.waitsFor?, delivers.result, pending, Option.map_some]
    exact ⟨_, .stop (step_waits found rfl waits)⟩

theorem realized_firstPresent {left right : Code} (ihLeft : Realized p scene left)
    (ihRight : Realized p scene right) : Realized p scene (.firstPresent left right) := by
  intro start next dst f log places pc below room
  simp only [emit, Program.places_append, Program.places_singleton, List.length_append, List.length_singleton,
    ← Nat.add_assoc] at places room ⊢
  have up := left.next_le_emit start next dst
  have upRight := right.next_le_emit (start + (left.emit start next dst).1.length + 1)
    (left.emit start next dst).2 dst
  rw [evaluate]
  refine (ihLeft start next dst f log places.1.1 pc below (by omega)).bind fun slot g log' atLeft => ?_
  have executes := fun target => Instr.execute_jumpIfPresent scene log' target atLeft.result
  rw [bind_apply]
  simp only [adapt_apply, ofOutcome]
  cases looked : slot.isPresent scene.store with
  | error failure =>
    rw [looked] at executes
    exact ⟨_, .stop (step_stuck atLeft.pc places.1.2 rfl (executes _))⟩
  | ok present =>
    rw [looked] at executes
    cases present with
    | true =>
      obtain ⟨h, run, atEnd, same⟩ := step_goes atLeft.pc places.1.2 rfl (executes _)
      exact .head run (.pure (atLeft.moved atEnd same))
    | false =>
      obtain ⟨h, run, atRight, same⟩ := step_proceeds atLeft.pc places.1.2 rfl (executes _)
      refine .head run ((ihRight _ _ _ h log' places.2 atRight (by omega) ?_).mono ?_)
      · rw [same, atLeft.size]
        exact room
      · intro slot' k delivers
        refine delivers.ofBranch up ?_ ?_
        · rw [same, atLeft.size]
        · rw [same]
          exact atLeft.kept

theorem realized_ternary {condition yes no : Code} (ihCondition : Realized p scene condition)
    (ihYes : Realized p scene yes) (ihNo : Realized p scene no) :
    Realized p scene (.ternary condition yes no) := by
  intro start next dst f log places pc below room
  simp only [emit, Program.places_append, Program.places_singleton, List.length_append, List.length_singleton,
    ← Nat.add_assoc] at places room ⊢
  have up := condition.next_le_emit start (next + 1) next
  have upYes := yes.next_le_emit (start + (condition.emit start (next + 1) next).1.length + 1)
    (condition.emit start (next + 1) next).2 dst
  have upNo := no.next_le_emit (start + (condition.emit start (next + 1) next).1.length + 1 +
    (yes.emit (start + (condition.emit start (next + 1) next).1.length + 1)
      (condition.emit start (next + 1) next).2 dst).1.length + 1)
    (yes.emit (start + (condition.emit start (next + 1) next).1.length + 1)
      (condition.emit start (next + 1) next).2 dst).2 dst
  rw [evaluate]
  refine (ihCondition.operand places.1.1.1.1 pc (by omega)).bind fun slot g log' atCondition => ?_
  have executes := fun target => Instr.execute_jumpIfFalse scene log' target atCondition.result
  rw [bind_apply]
  simp only [adapt_apply, ofOutcome]
  cases looked : slot.plain scene.store with
  | error failure =>
    rw [looked] at executes
    exact ⟨_, .stop (step_stuck atCondition.pc places.1.1.1.2 rfl (executes _))⟩
  | ok value =>
    rw [looked] at executes
    simp only [Except.mapError]
    cases truth : value.isTruthy with
    | true =>
      simp only [Except.map, truth, if_true] at executes ⊢
      obtain ⟨h, run, atYes, same⟩ := step_proceeds atCondition.pc places.1.1.1.2 rfl (executes _)
      refine .head run ((ihYes _ _ dst h log' places.1.1.2 atYes (by omega) ?_).last ?_)
      · rw [same, atCondition.size]
        omega
      · intro slot' k log'' delivers
        obtain ⟨l, run', atEnd, same'⟩ := step_goes delivers.pc places.1.2 rfl rfl
        have branch : Delivers f _ next dst slot' k := delivers.ofBranch (by omega)
          (by rw [same, atCondition.size]) (by rw [same]; exact fun r under _ => atCondition.prepared.kept r under)
        exact ⟨l, run', branch.moved atEnd same'⟩
    | false =>
      simp only [Except.map, truth, if_false, Bool.false_eq_true] at executes ⊢
      obtain ⟨h, run, atNo, same⟩ := step_goes atCondition.pc places.1.1.1.2 rfl (executes _)
      refine .head run ((ihNo _ _ _ h log' places.2 atNo (by omega) ?_).mono ?_)
      · rw [same, atCondition.size]
        exact room
      · intro slot' k delivers
        refine delivers.ofBranch (by omega) ?_ ?_
        · rw [same, atCondition.size]
        · rw [same]
          exact fun r under _ => atCondition.prepared.kept r under

/-- Operands in a row are evaluated in order, each into a register of its own. -/
theorem performs_evaluateAll {cs : List Code} (each : ∀ c ∈ cs, Realized p scene c) (start next : Nat) (f : Frame)
    (log : Log) (places : p.Places start (emitAll cs start next).1) (pc : f.pc = start)
    (room : (emitAll cs start next).2.2 ≤ f.registers.length) :
    Performs p scene f log
      (fun slots g => Prepared f (start + (emitAll cs start next).1.length) next g ∧
        List.Forall₂ (fun r slot => Registers.read g.registers r = .ok slot) (emitAll cs start next).2.1 slots)
      (evaluateAll scene cs log) := by
  induction cs generalizing start next f log with
  | nil => exact .pure ⟨⟨pc, rfl, fun _ _ => rfl⟩, .nil⟩
  | cons c rest ih =>
    have up := c.next_le_emit start (next + 1) next
    have upRest := next_le_emitAll (fun c (_ : c ∈ rest) => c.next_le_emit)
      (start + (c.emit start (next + 1) next).1.length) (c.emit start (next + 1) next).2
    simp only [emitAll, Program.places_append, List.length_append, ← Nat.add_assoc] at places ⊢
    have space : (emitAll rest (start + (c.emit start (next + 1) next).1.length)
      (c.emit start (next + 1) next).2).2.2 ≤ f.registers.length := room
    rw [evaluateAll]
    refine ((each c List.mem_cons_self).operand places.1 pc (by omega)).bind fun slot g log' atFirst => ?_
    refine (ih (fun c member => each c (List.mem_cons_of_mem _ member)) _ _ g log' places.2 atFirst.pc
      (by rw [atFirst.size]; exact space)).bind fun slots h log'' atRest => ?_
    refine .pure ⟨atFirst.prepared.trans atRest.1 (by omega), .cons ?_ atRest.2⟩
    exact atRest.1.read (by omega) atFirst.result

/-- Code with operands in a row that an instruction looks at when all are there. -/
theorem Realized.withAll {c : Code} {cs : List Code} (each : ∀ c ∈ cs, Realized p scene c)
    (instr : Nat → List Nat → Instr) (result : List Slot → Narrated Failure Slot)
    (layout : ∀ start next dst, c.emit start next dst =
      let (code, regs, free) := emitAll cs start next
      (code ++ [instr dst regs], free))
    (evaluates : ∀ log, c.evaluate scene log =
      (evaluateAll scene cs >>= fun slots => (result slots).adapt .failed) log)
    (ready : ∀ regs dst rs, (instr dst rs).waitsFor? scene.store regs = none)
    (executes : ∀ regs log dst rs slots, List.Forall₂ (fun r slot => Registers.read regs r = .ok slot) rs slots →
      (instr dst rs).execute scene regs log = ((result slots log).1.map (.write dst), (result slots log).2)) :
    Realized p scene c := by
  intro start next dst f log places pc below room
  rw [layout] at places room ⊢
  simp only [Program.places_append, Program.places_singleton] at places
  simp only [List.length_append, List.length_singleton, ← Nat.add_assoc]
  have up := next_le_emitAll (fun c (_ : c ∈ cs) => c.next_le_emit) start next
  have space : (emitAll cs start next).2.2 ≤ f.registers.length := room
  rw [evaluates]
  refine (performs_evaluateAll each start next f log places.1 pc space).bind fun slots g log' atAll => ?_
  exact atAll.1.performs (by omega) places.2 (ready _ _ _) (executes _ _ _ _ _ atAll.2)

/-- Emitted instructions do what the code says, wherever they are placed. -/
theorem realized (c : Code) : Realized p scene c := by
  induction c with
  | nullHandle =>
    exact Realized.ofLeaf .loadNull (pure (.handle .null)) (fun _ _ _ => rfl) (fun _ => rfl) (fun _ _ => rfl)
      (fun _ _ _ => rfl)
  | const value =>
    exact Realized.ofLeaf (.loadConst · value) (pure (.value value)) (fun _ _ _ => rfl) (fun _ => rfl)
      (fun _ _ => rfl) (fun _ _ _ => rfl)
  | param name =>
    exact Realized.ofLeaf (.loadParam · name) (scene.host.askParam name) (fun _ _ _ => rfl) (fun _ => rfl)
      (fun _ _ => rfl) (fun _ _ _ => rfl)
  | binding name =>
    exact Realized.ofLeaf (.loadBinding · name) (scene.host.askBinding name) (fun _ _ _ => rfl) (fun _ => rfl)
      (fun _ _ => rfl) (fun _ _ _ => rfl)
  | box inner ih =>
    refine ih.withOperand .box (fun slot => .ok (.handle slot.toHandle)) (fun _ _ _ => rfl) (fun _ => rfl)
      (fun _ _ _ => rfl) ?_
    intro regs log dst src slot read
    simp only [Instr.execute, read]
    rfl
  | resolve inner ih =>
    refine ih.withOperand .resolve (fun slot => (slot.plain scene.store).map .value) (fun _ _ _ => rfl)
      (fun _ => rfl) (fun _ _ _ => rfl) ?_
    intro regs log dst src slot read
    simp only [Instr.execute, Registers.readPlain_of_read scene.store read, writeResult_eq_map]
  | truthy inner ih =>
    refine ih.withOperand .truthy
      (fun slot => ((slot.plain scene.store).map fun value => .bool value.isTruthy).map .value)
      (fun _ _ _ => rfl) (fun _ => rfl) (fun _ _ _ => rfl) ?_
    intro regs log dst src slot read
    simp only [Instr.execute, Registers.readPlain_of_read scene.store read, writeResult_eq_map]
  | await provider point ih => exact realized_await ih
  | firstPresent left right ihLeft ihRight => exact realized_firstPresent ihLeft ihRight
  | ternary condition yes no ihCondition ihYes ihNo => exact realized_ternary ihCondition ihYes ihNo
  | unary op operand ih =>
    refine ih.withOperand (.unary · op) (fun slot => (slot.plain scene.store >>= op.applyUnary).map .value)
      (fun _ _ _ => rfl) (fun _ => rfl) (fun _ _ _ => rfl) ?_
    intro regs log dst src slot read
    simp only [Instr.execute, Registers.readPlain_of_read scene.store read, writeResult_eq_map]
  | field base name safe ih =>
    refine ih.withOperand (.field · · name safe)
      (fun slot => (slot.plain scene.store >>= fun value => value.field name safe).map .value)
      (fun _ _ _ => rfl) (fun _ => rfl) (fun _ _ _ => rfl) ?_
    intro regs log dst src slot read
    simp only [Instr.execute, Registers.readPlain_of_read scene.store read, writeResult_eq_map]
  | binary op left right ihLeft ihRight =>
    refine ihLeft.withOperands ihRight (.binary · op)
      (fun a b => (do op.applyBinary (← a.plain scene.store) (← b.plain scene.store) : Outcome Value).map .value)
      (fun _ _ _ => rfl) (fun _ => rfl) (fun _ _ _ _ => rfl) ?_
    intro regs log dst i j a b readA readB
    simp only [Instr.execute, Registers.readPlain_of_read scene.store readA,
      Registers.readPlain_of_read scene.store readB, writeResult_eq_map]
  | index base key safe ihBase ihKey =>
    refine ihBase.withOperands ihKey (.index · · · safe)
      (fun a b => (do (← a.plain scene.store).index (← b.plain scene.store) safe : Outcome Value).map .value)
      (fun _ _ _ => rfl) (fun _ => rfl) (fun _ _ _ _ => rfl) ?_
    intro regs log dst i j a b readA readB
    simp only [Instr.execute, Registers.readPlain_of_read scene.store readA,
      Registers.readPlain_of_read scene.store readB, writeResult_eq_map]
  | list items ih =>
    refine Realized.withAll ih .list
      (fun slots => ofOutcome (((slots.mapM (Slot.plain scene.store)).map .list).map .value)) (fun _ _ _ => rfl)
      (fun _ => rfl) (fun _ _ _ => rfl) ?_
    intro regs log dst rs slots reads
    simp only [Instr.execute, Registers.readAll_of_reads scene.store reads, writeResult_eq_map]
    rfl
  | call name args ih =>
    refine Realized.withAll ih (.call · name)
      (fun slots => do
        let values ← ofOutcome (slots.mapM (Slot.plain scene.store))
        let value ← scene.host.askCall name values
        pure (.value value)) (fun _ _ _ => rfl)
      (fun _ => ?_) (fun _ _ _ => rfl) ?_
    · simp only [adapt_bind]
      rfl
    · intro regs log dst rs slots reads
      simp only [Instr.execute, Registers.readAll_of_reads scene.store reads, writeResult_eq_map]
      cases slots.mapM (Slot.plain scene.store) with
      | error failure => rfl
      | ok values =>
        simp only [bind_apply, ofOutcome, Host.askCall]
        rcases scene.host.registry.call log name values with ⟨_ | _, log'⟩ <;> rfl

end Code

/-- The run of an assembled program gives what the evaluation of its code gives. -/
theorem Program.run_assemble (c : TypedCode) (scene : Scene) (log : Log) :
    let finish := (Frame.fresh (assemble c)).run (assemble c) {} scene log
    finish.result = Pause.orDone (c.code.evaluate scene log).1 ∧ finish.log = (c.code.evaluate scene log).2 := by
  have room : (c.code.emit 0 1 0).2 ≤ (Frame.fresh (assemble c)).registers.length := by
    simp only [Frame.fresh, assemble, List.length_replicate, Nat.le_refl]
  have places : (assemble c).Places 0 (c.code.emit 0 1 0).1 := by
    intro i instr found
    rw [Nat.zero_add]
    exact found
  have realized : c.code.Realized (assemble c) scene := c.code.realized
  have performs := realized 0 1 0 (Frame.fresh (assemble c)) log places rfl Nat.one_pos room
  rw [Nat.zero_add] at performs
  generalize c.code.evaluate scene log = outcome at performs
  rcases outcome with ⟨pause | slot, log'⟩
  · obtain ⟨g, ends⟩ := performs
    rw [Frame.run_eq_of_ends (assemble_forward c) ends]
    exact ⟨rfl, rfl⟩
  · obtain ⟨g, steps, delivers⟩ := performs
    have behind : (assemble c).instrs[g.pc]? = none := by
      rw [delivers.pc]
      exact List.getElem?_eq_none (Nat.le_refl _)
    rw [Frame.run_eq_of_ends (assemble_forward c) (steps.ends (.stop (Frame.step_done behind)))]
    refine ⟨?_, rfl⟩
    simp only [Frame.result, delivers.result]
    rfl

/-- How the run of a program ends in view of what its code gives: with the same slot or the same failure, or else
detached at the instruction of the suspension point where the code waits, by the handle that it waits for. -/
def Finish.Agrees (finish : Finish) (p : Program) (store : Store) : Except Pause Slot → Prop
  | .ok slot => finish.result = .ok (.done slot)
  | .error (.failed failure) => finish.result = .error failure
  | .error (.waiting point awaiting) =>
    finish.result = .ok (.detached point awaiting) ∧ finish.frame.suspended = some point ∧
      ∃ dst src, p.instrs[finish.frame.pc]? = some (.await dst src point) ∧
        Registers.read finish.frame.registers src = .ok (.handle awaiting) ∧ awaiting.isReady store = false

/-- The assembler is correct for every tree of code, whether lowering makes it or not. Whatever the host answers and
whatever handles are ready, a fresh frame comes to the end that the evaluation of the tree on slots comes to, and
asks the host the same in the same order. -/
theorem Program.run_agrees (c : TypedCode) (scene : Scene) (log : Log) :
    let finish := (Frame.fresh (assemble c)).run (assemble c) {} scene log
    finish.Agrees (assemble c) scene.store (c.code.evaluate scene log).1 ∧
      finish.log = (c.code.evaluate scene log).2 := by
  intro finish
  obtain ⟨result, logged⟩ := run_assemble c scene log
  have ends : Frame.Ends (assemble c) {} scene (Frame.fresh (assemble c)) log finish :=
    Frame.run_ends (assemble_forward c) _ log
  refine ⟨?_, logged⟩
  generalize (c.code.evaluate scene log).1 = outcome at result
  rcases outcome with (failure | ⟨point, awaiting⟩) | slot
  · exact result
  · exact ⟨result, ends.detached result⟩
  · exact result

end LazyExpr
