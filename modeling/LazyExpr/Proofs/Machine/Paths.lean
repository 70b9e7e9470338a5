import LazyExpr.Proofs.Machine.Protocol

namespace LazyExpr

/-- A register that one of the instructions has written. -/
def WrittenBy (passed : List Instr) (r : Nat) : Prop := ∃ instr ∈ passed, instr.writes? = some r

/-- The control paths from the first instruction on: the instructions that have been passed, the latest one first,
and the index arrived at. A conditional jump can go either way. -/
inductive Program.Path (p : Program) : List Instr → Nat → Prop
  | start : Path p [] 0
  | next {passed pc instr after} : Path p passed pc → p.instrs[pc]? = some instr → after ∈ instr.successors pc →
      Path p (instr :: passed) after

/-- A program that keeps to its registers and instructions: it names no others, jumps forward only, and writes
each register before reading it, whatever path is taken. -/
structure Program.Closed (p : Program) : Prop where
  registers : ∀ instr ∈ p.instrs, ∀ r ∈ instr.registers, r < p.registers
  jumps : ∀ pc instr, p.instrs[pc]? = some instr → ∀ target ∈ instr.targets, pc < target ∧ target ≤ p.instrs.length
  operands : ∀ passed pc, p.Path passed pc → ∀ instr, p.instrs[pc]? = some instr → ∀ r ∈ instr.reads,
    WrittenBy passed r
  result : ∀ passed pc, p.Path passed pc → p.instrs.length ≤ pc → WrittenBy passed 0

/-- The regime in which a register is known as soon as it has been written. -/
def Regime.written : Regime := ⟨fun _ => True, True, True⟩

namespace Code

theorem settled_written (c : Code) : c.Settled .written := by
  induction c with
  | firstPresent left right ihLeft ihRight => exact ⟨ihLeft, ihRight⟩
  | ternary condition yes no _ ihYes ihNo => exact ⟨ihYes, ihNo⟩
  | _ => trivial

/-- Code writes registers before it reads them. -/
theorem disciplined_written (c : Code) : c.Disciplined .written := by
  induction c with
  | nullHandle => exact .nullHandle
  | const => exact .const
  | param => exact .param
  | binding => exact .binding
  | box inner ih => exact .box inner.settled_written ih
  | await provider _ ih => exact .await (fun _ => provider.settled_written) ih
  | resolve inner ih => exact .resolve inner.settled_written ih
  | firstPresent left _ ihLeft ihRight => exact .firstPresent left.settled_written ihLeft ihRight
  | ternary condition _ _ ihCondition ihYes ihNo => exact .ternary condition.settled_written ihCondition ihYes ihNo
  | truthy inner ih => exact .truthy inner.settled_written ih
  | binary _ left right ihLeft ihRight => exact .binary left.settled_written right.settled_written ihLeft ihRight
  | unary _ operand ih => exact .unary operand.settled_written ih
  | field base _ _ ih => exact .field base.settled_written ih
  | index base key _ ihBase ihKey => exact .index base.settled_written key.settled_written ihBase ihKey
  | list _ ih => exact .list (fun c _ => c.settled_written) ih
  | call _ _ ih => exact .call (fun c _ => c.settled_written) ih

end Code

theorem Instr.learns_written (passed : List Instr) (instr : Instr) :
    instr.learns .written (WrittenBy passed) = WrittenBy (instr :: passed) := by
  funext r
  refine propext ⟨fun knows => ?_, fun ⟨earlier, member, writes⟩ => ?_⟩
  · unfold learns at knows
    split at knows
    · rename_i writes
      exact ⟨instr, List.mem_cons_self, writes⟩
    · obtain ⟨earlier, member, writes⟩ := knows
      exact ⟨earlier, List.mem_cons_of_mem _ member, writes⟩
  · unfold learns
    split
    · exact fun _ _ => trivial
    · rename_i other
      rcases List.mem_cons.mp member with same | before
      · exact absurd (same ▸ writes) other
      · exact ⟨earlier, before, writes⟩

namespace Program

variable {p : Program} {passed : List Instr} {pc : Nat}

/-- On every path the registers written so far are known. -/
theorem Path.safe (safe : p.Safe .written 0 fun _ => False) (path : p.Path passed pc) :
    p.Safe .written pc (WrittenBy passed) := by
  induction path with
  | start =>
    have none : WrittenBy [] = fun _ => False := by
      funext r
      exact propext ⟨fun ⟨_, member, _⟩ => absurd member List.not_mem_nil, False.elim⟩
    exact none ▸ safe
  | @next passed pc instr after _ found leads ih =>
    cases ih with
    | behind past _ => cases past.symm.trans found
    | instr found' _ further =>
      cases Option.some.inj (found'.symm.trans found)
      exact Instr.learns_written passed instr ▸ further after leads

/-- The program of any code is closed. -/
theorem closed_assemble (c : TypedCode) : (assemble c).Closed := by
  have safe := assemble_safe c.code.disciplined_written fun _ => c.code.settled_written
  refine ⟨assemble_registersBelow c, fun pc instr found target member => ?_, ?_, ?_⟩
  · have jumps := c.code.emit_jumpsUpTo 0 1 0 pc instr found target member
    have length : (assemble c).instrs.length = (c.code.emit 0 1 0).1.length := rfl
    omega
  · intro passed pc path instr found r member
    cases path.safe safe with
    | behind past _ => cases past.symm.trans found
    | instr found' reads _ =>
      cases Option.some.inj (found'.symm.trans found)
      exact reads r member fun _ => trivial
  · intro passed pc path past
    cases path.safe safe with
    | behind _ known => exact known trivial
    | instr found _ _ =>
      have inside := (List.getElem?_eq_some_iff.mp found).1
      omega

end Program

theorem Instr.mem_successors {instr : Instr} {pc after : Nat} (leads : after ∈ instr.successors pc) :
    after = pc + 1 ∨ after ∈ instr.targets := by
  cases instr with
  | jumpIfPresent _ target | jumpIfFalse _ target => exact List.mem_cons.mp leads
  | jump target => exact .inr leads
  | _ => exact .inl (List.mem_singleton.mp leads)

/-- No path leads further than just behind the last instruction. -/
theorem Program.Path.pc_le {p : Program} (closed : p.Closed) {passed : List Instr} {pc : Nat}
    (path : p.Path passed pc) : pc ≤ p.instrs.length := by
  cases path with
  | start => exact Nat.zero_le _
  | @next passed before instr _ path found leads =>
    have inside := (List.getElem?_eq_some_iff.mp found).1
    rcases Instr.mem_successors leads with falls | jumps
    · omega
    · exact (closed.jumps before instr found pc jumps).2

namespace Frame

/-- The frame stands at an instruction whose registers it has, and whose operands it can read, or behind the last
one with a result to read. -/
structure Inside (p : Program) (f : Frame) : Prop where
  pc : f.pc ≤ p.instrs.length
  registers : ∀ instr, p.instrs[f.pc]? = some instr → ∀ r ∈ instr.registers, r < f.registers.length
  operands : ∀ instr, p.instrs[f.pc]? = some instr → ∀ r ∈ instr.reads,
    ∃ slot, Registers.read f.registers r = .ok slot
  result : p.instrs.length ≤ f.pc → ∃ slot, Registers.read f.registers 0 = .ok slot

/-- The frame has come along a control path and holds a slot in every register written on it. -/
structure Along (p : Program) (f : Frame) (passed : List Instr) : Prop where
  size : f.registers.length = p.registers
  path : p.Path passed f.pc
  written : ∀ r, WrittenBy passed r → ∃ slot, Registers.read f.registers r = .ok slot

variable {p : Program} {o : Options} {scene : Scene} {f g : Frame} {log log' : Log} {finish : Finish}
variable {passed : List Instr}

theorem Along.inside (closed : p.Closed) (along : Along p f passed) : Inside p f := by
  refine ⟨along.path.pc_le closed, fun instr found r named => ?_, fun instr found r member => ?_, fun past => ?_⟩
  · rw [along.size]
    exact closed.registers instr (List.mem_of_getElem? found) r named
  · exact along.written r (closed.operands passed f.pc along.path instr found r member)
  · exact along.written 0 (closed.result passed f.pc along.path past)

theorem Along.same (along : Along p f passed) (pc : g.pc = f.pc) (registers : g.registers = f.registers) :
    Along p g passed :=
  ⟨registers ▸ along.size, pc ▸ along.path, registers ▸ along.written⟩

theorem Along.write {instr : Instr} (closed : p.Closed) (along : Along p f passed)
    (found : p.instrs[f.pc]? = some instr) {dst : Nat} {slot : Slot} (writes : instr.writes? = some dst)
    (pc : g.pc = f.pc + 1) (registers : g.registers = f.registers.set dst (some slot)) :
    Along p g (instr :: passed) := by
  have leads : g.pc ∈ instr.successors f.pc := by
    rw [Instr.successors_of_writes writes, pc]
    exact List.mem_singleton_self _
  have room : dst < f.registers.length := by
    rw [along.size]
    refine closed.registers instr (List.mem_of_getElem? found) dst ?_
    simp only [Instr.registers, writes, Option.toList_some, List.cons_append, List.mem_cons, true_or]
  refine ⟨by rw [registers, List.length_set, along.size], .next along.path found leads, fun r written => ?_⟩
  by_cases same : dst = r
  · subst same
    exact ⟨slot, by simp only [Registers.read, registers, List.getElem?_set_self room]⟩
  · have before : WrittenBy passed r := by
      obtain ⟨earlier, member, writes'⟩ := written
      rcases List.mem_cons.mp member with latest | older
      · exact absurd (Option.some.inj (writes.symm.trans (latest ▸ writes'))) same
      · exact ⟨earlier, older, writes'⟩
    obtain ⟨slot', read⟩ := along.written r before
    exact ⟨slot', by simpa only [Registers.read, registers, List.getElem?_set_ne same] using read⟩

theorem Along.jump {instr : Instr} (along : Along p f passed) (found : p.instrs[f.pc]? = some instr)
    (writes : instr.writes? = none) (leads : g.pc ∈ instr.successors f.pc) (registers : g.registers = f.registers) :
    Along p g (instr :: passed) := by
  refine ⟨registers ▸ along.size, .next along.path found leads, fun r written => ?_⟩
  obtain ⟨earlier, member, writes'⟩ := written
  rcases List.mem_cons.mp member with latest | older
  · cases writes.symm.trans (latest ▸ writes')
  · exact registers ▸ along.written r ⟨earlier, older, writes'⟩

/-- Each step goes on along the path. -/
theorem Along.step (closed : p.Closed) (along : Along p f passed) (run : f.step p o scene log = .running g log') :
    ∃ instr, Along p g (instr :: passed) := by
  have outcomes := step_outcomes p o scene f log
  rw [run] at outcomes
  cases outcomes with
  | @passes instr action _ found _ _ executed =>
    refine ⟨instr, ?_⟩
    have pc := f.passed_pc instr action
    have registers := f.passed_registers instr action
    cases Instr.execute_acts executed with
    | value writes | null writes | wrap writes | copy writes | answer writes =>
      exact along.write closed found writes pc registers
    | goto writes leads => exact along.jump found writes (pc ▸ leads f.pc) registers
    | proceed writes falls => exact along.jump found writes (pc ▸ falls f.pc) registers

theorem Along.steps (closed : p.Closed) (steps : Steps p o scene f log g log') (along : Along p f passed) :
    ∃ passed', Along p g passed' := by
  induction steps generalizing passed with
  | refl => exact ⟨passed, along⟩
  | head run _ ih =>
    obtain ⟨instr, further⟩ := along.step closed run
    exact ih further

theorem Along.fresh (p : Program) : Along p (Frame.fresh p) [] := by
  refine ⟨?_, .start, fun r ⟨_, member, _⟩ => absurd member List.not_mem_nil⟩
  simp only [Frame.fresh, List.length_replicate]

/-- A whole run goes on along the path, however it ends. -/
theorem Along.ends (closed : p.Closed) (ends : Ends p o scene f log finish) (along : Along p f passed) :
    ∃ passed', Along p finish.frame passed' := by
  obtain ⟨g, log', steps, last⟩ := ends.last
  obtain ⟨pc, registers, _⟩ := step_stopped last
  obtain ⟨passed', further⟩ := along.steps closed steps
  exact ⟨passed', further.same pc registers⟩

/-- A run tries each instruction from where it starts once at most. -/
theorem Ends.steps_le (forward : p.Forward) (ends : Ends p o scene f log finish) :
    finish.frame.steps ≤ f.steps + (p.instrs.length - f.pc) := by
  induction ends with
  | @stop f log finish run =>
    have outcomes := step_outcomes p o scene f log
    rw [run] at outcomes
    cases outcomes with
    | done => exact Nat.le_add_right _ _
    | obstructed found | waits found | fails found =>
      have inside := (List.getElem?_eq_some_iff.mp found).1
      change f.steps + 1 ≤ _
      omega
  | @head f g log log' finish run _ ih =>
    obtain ⟨inside, further⟩ := running_pc_lt forward run
    have counted := (step_running run).2
    omega

/-- A run that stops inside its program reports an unwritten register only if the host answers with that. -/
theorem Inside.step_unwritten (inside : Inside p f) (run : f.step p o scene log = .stopped finish) {r : Nat}
    (failed : finish.result = .error (.unwritten r)) :
    ∃ event, finish.log = log ++ [event] ∧ scene.host.answer log event = .error (.unwritten r) := by
  have outcomes := step_outcomes p o scene f log
  rw [run] at outcomes
  cases outcomes with
  | done behind =>
    obtain ⟨slot, read⟩ := inside.result (List.getElem?_eq_none_iff.mp behind)
    have unread : Registers.read f.registers 0 = .error (.unwritten r) := Outcome.map_eq_error failed
    cases read.symm.trans unread
  | obstructed _ obstacle =>
    cases failed
    rcases obstacle_kind obstacle with limit | flag
    · cases limit
    · cases flag
  | waits => cases failed
  | @fails instr failure log' found _ _ executed =>
    cases failed
    generalize reported : Failure.unwritten r = failure at executed
    cases Instr.execute_fails executed with
    | operation own =>
      rw [← reported] at own
      cases own
    | unwritten member unread =>
      obtain ⟨slot, read⟩ := inside.operands instr found _ member
      cases read.symm.trans unread
    | unready => cases reported
    | host answered => exact ⟨_, rfl, answered⟩

end Frame

namespace Session

variable {p : Program} {host : Host} {trusted : Event → Prop} {allowed : Move → Prop} {s : Session}

/-- In every session the frame has come along a control path. -/
theorem Reached.along (closed : p.Closed) (forward : p.Forward) (reached : Reached p host trusted allowed s) :
    ∃ passed, Frame.Along p s.frame passed := by
  induction reached with
  | fresh store => exact ⟨[], .fresh p⟩
  | @turn s s' move _ _ turn ih =>
    obtain ⟨passed, along⟩ := ih
    cases turn with
    | run _ => exact along.ends closed (Frame.run_ends forward s.frame s.log)
    | complete => exact ⟨passed, along⟩

end Session

/-- Assembled programs are closed, and their runs end. Whatever the host does and whatever has been run and
completed before, the frame stays inside the program throughout a run, each instruction leads to a later one, so
that no more of them are executed than there are, and no register is reported as not written unless the host does
so. -/
theorem Program.assemble_closed (c : TypedCode) :
    (assemble c).Closed ∧
    ∀ host s, Session.Reached (assemble c) host (fun _ => False) (fun _ => True) s → ∀ o cancelled,
      let finish := s.finish (assemble c) host o cancelled
      (∀ g log, Frame.Steps (assemble c) o ⟨host, s.store, cancelled⟩ s.frame s.log g log → g.Inside (assemble c) ∧
        ∀ h log', g.step (assemble c) o ⟨host, s.store, cancelled⟩ log = .running h log' → g.pc < h.pc) ∧
      finish.frame.steps ≤ s.frame.steps + (assemble c).instrs.length ∧
      ∀ r, finish.result = .error (.unwritten r) →
        ∃ before event, finish.log = before ++ [event] ∧ host.answer before event = .error (.unwritten r) := by
  have closed := closed_assemble c
  have forward := assemble_forward c
  refine ⟨closed, ?_⟩
  intro host s reached o cancelled finish
  obtain ⟨passed, along⟩ := reached.along closed forward
  have ends : Frame.Ends (assemble c) o ⟨host, s.store, cancelled⟩ s.frame s.log finish :=
    Frame.run_ends forward s.frame s.log
  refine ⟨fun g log steps => ?_, ?_, fun r failed => ?_⟩
  · obtain ⟨passed', further⟩ := along.steps closed steps
    exact ⟨further.inside closed, fun h log' run => (Frame.running_pc_lt forward run).2⟩
  · have counted := ends.steps_le forward
    omega
  · obtain ⟨g, log, steps, last⟩ := ends.last
    obtain ⟨passed', further⟩ := along.steps closed steps
    obtain ⟨event, logged, answered⟩ := (further.inside closed).step_unwritten last failed
    exact ⟨log, event, logged, answered⟩

end LazyExpr
