import LazyExpr.Machine.Frame

namespace LazyExpr

theorem Outcome.map_eq_ok {α β : Type} {f : α → β} {x : Outcome α} {b : β} (found : x.map f = .ok b) :
    ∃ a, x = .ok a ∧ f a = b := by
  cases x with
  | error failure => cases found
  | ok a => exact ⟨a, rfl, Except.ok.inj found⟩

theorem Outcome.map_eq_error {α β : Type} {f : α → β} {x : Outcome α} {failure : Failure}
    (failed : x.map f = .error failure) : x = .error failure := by
  cases x with
  | error failure' => exact congrArg Except.error (Except.error.inj failed)
  | ok a => cases failed

theorem Outcome.bind_eq_ok {α β : Type} {x : Outcome α} {k : α → Outcome β} {b : β} (found : x >>= k = .ok b) :
    ∃ a, x = .ok a ∧ k a = .ok b := by
  cases x with
  | error failure => cases found
  | ok a => exact ⟨a, rfl, found⟩

namespace Instr

/-- The indices that an instruction can jump to. -/
def targets : Instr → List Nat
  | jumpIfPresent _ target | jumpIfFalse _ target | jump target => [target]
  | _ => []

def isAwait : Instr → Bool
  | await _ _ _ => true
  | _ => false

/-- The suspension point of an instruction with the pending handle that it would wait for. -/
def waitsFor? (store : Store) (regs : Registers) : Instr → Option (Nat × Handle)
  | await _ src point =>
    match regs.read src with
    | .ok slot => (slot.pending? store).map (point, ·)
    | .error _ => none
  | _ => none

/-- A jump that is taken leads to one of the targets of its instruction. -/
theorem execute_goto {instr : Instr} {scene : Scene} {regs : Registers} {log log' : Log} {target : Nat}
    (run : instr.execute scene regs log = (.ok (.goto target), log')) : target ∈ instr.targets := by
  cases instr with
  | jump t =>
    simp only [execute, Prod.mk.injEq, Except.ok.injEq, Action.goto.injEq] at run
    simp [targets, run.1]
  | jumpIfPresent src t =>
    simp only [execute, bind, Except.bind, pure, Except.pure] at run
    grind [targets]
  | jumpIfFalse condition t =>
    simp only [execute, bind, Except.bind, pure, Except.pure] at run
    grind [targets]
  | _ =>
    simp only [execute, writeResult, Except.map] at run
    grind

end Instr

theorem Instr.waitsFor?_eq_some {instr : Instr} {store : Store} {regs : Registers} {point : Nat} {h : Handle}
    (waits : instr.waitsFor? store regs = some (point, h)) : ∃ dst src, instr = .await dst src point ∧
    regs.read src = .ok (.handle h) ∧ h.isReady store = false := by
  cases instr with
  | await dst src point' =>
    simp only [waitsFor?] at waits
    split at waits
    · rename_i slot read
      obtain ⟨awaited, pending, same⟩ := Option.map_eq_some_iff.mp waits
      cases same
      cases slot with
      | value v => cases pending
      | handle h' =>
        simp only [Slot.pending?] at pending
        split at pending
        · cases pending
        · rename_i unready
          cases pending
          exact ⟨dst, src, rfl, read, Bool.eq_false_iff.mpr unready⟩
    · cases waits
  | _ => cases waits

/-- Every jump leads forward. -/
def Program.Forward (p : Program) : Prop :=
  ∀ i instr, p.instrs[i]? = some instr → ∀ target ∈ Instr.targets instr, i < target

namespace Frame

/-- The frame in which an instruction is tried. -/
def counted (f : Frame) : Frame := { f with steps := f.steps + 1 }

/-- The frame behind an instruction. Passing a suspension point ends the suspension there. -/
def passed (f : Frame) (instr : Instr) (action : Action) : Frame :=
  { f.counted.apply action with suspended := if instr.isAwait then none else f.suspended }

theorem passed_pc (f : Frame) (instr : Instr) (action : Action) :
    (f.passed instr action).pc = (f.apply action).pc := by
  cases action <;> rfl

theorem passed_registers (f : Frame) (instr : Instr) (action : Action) :
    (f.passed instr action).registers = (f.apply action).registers := by
  cases action <;> rfl

/-- All that one instruction can lead to. -/
inductive Outcomes (p : Program) (o : Options) (scene : Scene) (f : Frame) (log : Log) : Progress → Prop
  | done : p.instrs[f.pc]? = none → Outcomes p o scene f log (.stopped ⟨f.result, f, log⟩)
  | obstructed {instr failure} : p.instrs[f.pc]? = some instr →
      obstacle? o scene.cancelled (f.steps + 1) = some failure →
      Outcomes p o scene f log (.stopped ⟨.error failure, f.counted, log⟩)
  | waits {instr point h} : p.instrs[f.pc]? = some instr →
      obstacle? o scene.cancelled (f.steps + 1) = none →
      instr.waitsFor? scene.store f.registers = some (point, h) →
      Outcomes p o scene f log
        (.stopped ⟨.ok (.detached point h), { f.counted with suspended := some point }, log⟩)
  | fails {instr failure log'} : p.instrs[f.pc]? = some instr →
      obstacle? o scene.cancelled (f.steps + 1) = none →
      instr.waitsFor? scene.store f.registers = none →
      instr.execute scene f.registers log = (.error failure, log') →
      Outcomes p o scene f log (.stopped ⟨.error failure, f.counted, log'⟩)
  | passes {instr action log'} : p.instrs[f.pc]? = some instr →
      obstacle? o scene.cancelled (f.steps + 1) = none →
      instr.waitsFor? scene.store f.registers = none →
      instr.execute scene f.registers log = (.ok action, log') →
      Outcomes p o scene f log (.running (f.passed instr action) log')

variable {p : Program} {o : Options} {scene : Scene} {f : Frame} {log : Log} {instr : Instr}

theorem step_done (behind : p.instrs[f.pc]? = none) : f.step p o scene log = .stopped ⟨f.result, f, log⟩ := by
  simp only [step, behind]

theorem step_obstructed {failure : Failure} (found : p.instrs[f.pc]? = some instr)
    (obstacle : obstacle? o scene.cancelled (f.steps + 1) = some failure) :
    f.step p o scene log = .stopped ⟨.error failure, f.counted, log⟩ := by
  simp only [step, found, obstacle]
  rfl

theorem step_waits {point : Nat} {h : Handle} (found : p.instrs[f.pc]? = some instr)
    (free : obstacle? o scene.cancelled (f.steps + 1) = none)
    (waits : instr.waitsFor? scene.store f.registers = some (point, h)) :
    f.step p o scene log =
      .stopped ⟨.ok (.detached point h), { f.counted with suspended := some point }, log⟩ := by
  obtain ⟨dst, src, same, read, unready⟩ := Instr.waitsFor?_eq_some waits
  subst same
  simp only [step, found, free, awaitSlot, read, Slot.pending?, unready]
  rfl

theorem step_executes (log : Log) (found : p.instrs[f.pc]? = some instr)
    (free : obstacle? o scene.cancelled (f.steps + 1) = none)
    (ready : instr.waitsFor? scene.store f.registers = none) :
    f.step p o scene log = match instr.execute scene f.registers log with
      | (.ok action, log') => .running (f.passed instr action) log'
      | (.error failure, log') => .stopped ⟨.error failure, f.counted, log'⟩ := by
  cases instr with
  | await dst src point =>
    cases atSrc : Registers.read f.registers src with
    | error failure =>
      simp only [step, found, free, awaitSlot, atSrc, Instr.execute, Except.map]
      rfl
    | ok slot =>
      simp only [Instr.waitsFor?, atSrc, Option.map_eq_none_iff] at ready
      simp only [step, found, free, awaitSlot, atSrc, ready, Instr.execute, Except.map]
      rfl
  | _ =>
    simp only [step, found, free]
    generalize Instr.execute scene f.registers log _ = run
    rcases run with ⟨failure | action, log'⟩
    · rfl
    · cases action <;> rfl

theorem step_outcomes (p : Program) (o : Options) (scene : Scene) (f : Frame) (log : Log) :
    Outcomes p o scene f log (f.step p o scene log) := by
  cases found : p.instrs[f.pc]? with
  | none => rw [step_done found]; exact .done found
  | some instr =>
    cases obstacle : obstacle? o scene.cancelled (f.steps + 1) with
    | some failure => rw [step_obstructed found obstacle]; exact .obstructed found obstacle
    | none =>
      cases waits : instr.waitsFor? scene.store f.registers with
      | some wait => rw [step_waits found obstacle waits]; exact .waits found obstacle waits
      | none =>
        rw [step_executes log found obstacle waits]
        split
        · exact .passes found obstacle waits (by assumption)
        · exact .fails found obstacle waits (by assumption)

/-- A frame that goes on has executed one instruction more. -/
theorem step_running {g : Frame} {log' : Log} (run : f.step p o scene log = .running g log') :
    (∃ instr, p.instrs[f.pc]? = some instr) ∧ g.steps = f.steps + 1 := by
  have outcomes := step_outcomes p o scene f log
  rw [run] at outcomes
  cases outcomes with
  | @passes instr action _ found =>
    refine ⟨⟨instr, found⟩, ?_⟩
    cases action <;> rfl

theorem running_pc_lt (forward : p.Forward) {g : Frame} {log' : Log}
    (run : f.step p o scene log = .running g log') : f.pc < p.instrs.length ∧ f.pc < g.pc := by
  have outcomes := step_outcomes p o scene f log
  rw [run] at outcomes
  cases outcomes with
  | @passes instr action _ found _ _ executed =>
    refine ⟨(List.getElem?_eq_some_iff.mp found).1, ?_⟩
    rw [passed_pc]
    cases action with
    | write dst slot => exact Nat.lt_succ_self _
    | goto target => exact forward _ _ found _ (Instr.execute_goto executed)
    | proceed => exact Nat.lt_succ_self _

/-- Any number of instructions that are passed in a row. -/
inductive Steps (p : Program) (o : Options) (scene : Scene) : Frame → Log → Frame → Log → Prop
  | refl (f : Frame) (log : Log) : Steps p o scene f log f log
  | head {f g h log log' log''} : f.step p o scene log = .running g log' →
      Steps p o scene g log' h log'' → Steps p o scene f log h log''

/-- The end of a run, however many instructions it takes. -/
inductive Ends (p : Program) (o : Options) (scene : Scene) : Frame → Log → Finish → Prop
  | stop {f log finish} : f.step p o scene log = .stopped finish → Ends p o scene f log finish
  | head {f g log log' finish} : f.step p o scene log = .running g log' →
      Ends p o scene g log' finish → Ends p o scene f log finish

theorem Steps.trans {f g h : Frame} {log log' log'' : Log} (first : Steps p o scene f log g log')
    (rest : Steps p o scene g log' h log'') : Steps p o scene f log h log'' := by
  induction first with
  | refl => exact rest
  | head run _ ih => exact .head run (ih rest)

theorem Steps.ends {f g : Frame} {log log' : Log} {finish : Finish} (first : Steps p o scene f log g log')
    (rest : Ends p o scene g log' finish) : Ends p o scene f log finish := by
  induction first with
  | refl => exact rest
  | head run _ ih => exact .head run (ih rest)

/-- A run that is detached stands at a suspension point, whose handle it names. -/
theorem Ends.detached {f : Frame} {log : Log} {finish : Finish} (ends : Ends p o scene f log finish) {point : Nat}
    {h : Handle} (result : finish.result = .ok (.detached point h)) : finish.frame.suspended = some point ∧
    ∃ dst src, p.instrs[finish.frame.pc]? = some (.await dst src point) ∧
      Registers.read finish.frame.registers src = .ok (.handle h) ∧ h.isReady scene.store = false := by
  induction ends with
  | @stop f log finish run =>
    have outcomes := step_outcomes p o scene f log
    rw [run] at outcomes
    cases outcomes with
    | done =>
      obtain ⟨slot, _, same⟩ := Outcome.map_eq_ok result
      cases same
    | obstructed | fails => cases result
    | waits found _ waits =>
      cases result
      obtain ⟨dst, src, same, read, unready⟩ := Instr.waitsFor?_eq_some waits
      subst same
      exact ⟨rfl, dst, src, found, read, unready⟩
  | head _ _ ih => exact ih result

/-- A run that is done stands behind the last instruction. -/
theorem Ends.done {f : Frame} {log : Log} {finish : Finish} (ends : Ends p o scene f log finish) {slot : Slot}
    (result : finish.result = .ok (.done slot)) :
    p.instrs[finish.frame.pc]? = none ∧ finish.frame.result = .ok (.done slot) := by
  induction ends with
  | @stop f log finish run =>
    have outcomes := step_outcomes p o scene f log
    rw [run] at outcomes
    cases outcomes with
    | done behind => exact ⟨behind, result⟩
    | obstructed | waits | fails => cases result
  | head _ _ ih => exact ih result

theorem Ends.unique {f : Frame} {log : Log} {a b : Finish} (first : Ends p o scene f log a)
    (second : Ends p o scene f log b) : a = b := by
  induction first with
  | stop run =>
    cases second with
    | stop run' => exact Progress.stopped.inj (run.symm.trans run')
    | head run' _ => cases run.symm.trans run'
  | head run _ ih =>
    cases second with
    | stop run' => cases run.symm.trans run'
    | head run' rest =>
      cases run.symm.trans run'
      exact ih rest

/-- Jumps that lead forward let no run last longer than the program is. -/
theorem runFor_ends (forward : p.Forward) {fuel : Nat} (f : Frame) (log : Log)
    (enough : p.instrs.length - f.pc < fuel) : Ends p o scene f log (runFor p o scene fuel f log) := by
  induction fuel generalizing f log with
  | zero => exact absurd enough (Nat.not_lt_zero _)
  | succ fuel ih =>
    unfold runFor
    cases run : f.step p o scene log with
    | stopped finish => exact .stop run
    | running g log' =>
      have further := running_pc_lt forward run
      exact .head run (ih g log' (by omega))

theorem run_ends (forward : p.Forward) (f : Frame) (log : Log) :
    Ends p o scene f log (f.run p o scene log) :=
  runFor_ends forward f log (by unfold patience UInt64.size; omega)

theorem run_eq_of_ends (forward : p.Forward) {f : Frame} {log : Log} {finish : Finish}
    (ends : Ends p o scene f log finish) : f.run p o scene log = finish :=
  (run_ends forward f log).unique ends

end Frame

end LazyExpr
