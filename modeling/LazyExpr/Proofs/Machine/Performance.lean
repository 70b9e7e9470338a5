import LazyExpr.Proofs.Machine.Evaluation
import LazyExpr.Proofs.Machine.Layout

namespace LazyExpr

namespace Frame

variable {p : Program} {scene : Scene}

/-- The run from this frame goes as the computation does: it reaches a frame that fits what the computation
gives, or ends the way in which the computation is kept from giving anything. -/
def Performs (p : Program) (scene : Scene) (f : Frame) (log : Log) {α : Type} (goal : α → Frame → Prop) :
    Except Pause α × Log → Prop
  | (.ok a, log') => ∃ g, Steps p {} scene f log g log' ∧ goal a g
  | (.error pause, log') => ∃ g, Ends p {} scene f log ⟨pause.halt, g, log'⟩

theorem Performs.pure {f : Frame} {log : Log} {α : Type} {goal : α → Frame → Prop} {a : α} (fits : goal a f) :
    Performs p scene f log goal (.ok a, log) :=
  ⟨f, .refl f log, fits⟩

theorem Performs.bind {f : Frame} {log : Log} {α β : Type} {goal : α → Frame → Prop} {goal' : β → Frame → Prop}
    {x : Narrated Pause α} {k : α → Narrated Pause β} (first : Performs p scene f log goal (x log))
    (rest : ∀ a g log', goal a g → Performs p scene g log' goal' (k a log')) :
    Performs p scene f log goal' ((x >>= k) log) := by
  rw [Narrated.bind_apply]
  rcases outcome : x log with ⟨pause | a, log'⟩
  · rw [outcome] at first
    exact first
  · rw [outcome] at first
    obtain ⟨g, steps, fits⟩ := first
    have later := rest a g log' fits
    simp only
    rcases outcome' : k a log' with ⟨pause | b, log''⟩
    · rw [outcome'] at later
      obtain ⟨h, ends⟩ := later
      exact ⟨h, steps.ends ends⟩
    · rw [outcome'] at later
      obtain ⟨h, steps', fits'⟩ := later
      exact ⟨h, steps.trans steps', fits'⟩

/-- One more instruction that the computation knows nothing of. -/
theorem Performs.last {f : Frame} {log : Log} {α : Type} {goal goal' : α → Frame → Prop}
    {outcome : Except Pause α × Log} (performs : Performs p scene f log goal outcome)
    (further : ∀ a g log', goal a g → ∃ h, g.step p {} scene log' = .running h log' ∧ goal' a h) :
    Performs p scene f log goal' outcome := by
  rcases outcome with ⟨pause | a, log'⟩
  · exact performs
  · obtain ⟨g, steps, fits⟩ := performs
    obtain ⟨h, run, fits'⟩ := further a g log' fits
    exact ⟨h, steps.trans (.head run (.refl h log')), fits'⟩

theorem Performs.mono {f : Frame} {log : Log} {α : Type} {goal goal' : α → Frame → Prop}
    {outcome : Except Pause α × Log} (performs : Performs p scene f log goal outcome)
    (weaker : ∀ a g, goal a g → goal' a g) : Performs p scene f log goal' outcome := by
  rcases outcome with ⟨pause | a, log'⟩
  · exact performs
  · obtain ⟨g, steps, fits⟩ := performs
    exact ⟨g, steps, weaker a g fits⟩

theorem Performs.head {f g : Frame} {log log' : Log} {α : Type} {goal : α → Frame → Prop}
    {outcome : Except Pause α × Log} (run : f.step p {} scene log = .running g log')
    (rest : Performs p scene g log' goal outcome) : Performs p scene f log goal outcome := by
  rcases outcome with ⟨pause | a, log''⟩
  · obtain ⟨h, ends⟩ := rest
    exact ⟨h, .head run ends⟩
  · obtain ⟨h, steps, fits⟩ := rest
    exact ⟨h, .head run steps, fits⟩

/-- The frame has arrived at index `stop` with a slot in register `dst`, and the registers below `next` hold
what they held before. -/
structure Delivers (f : Frame) (stop next dst : Nat) (slot : Slot) (g : Frame) : Prop where
  pc : g.pc = stop
  size : g.registers.length = f.registers.length
  result : Registers.read g.registers dst = .ok slot
  kept : ∀ r < next, r ≠ dst → g.registers[r]? = f.registers[r]?

theorem Delivers.moved {f g h : Frame} {stop stop' next dst : Nat} {slot : Slot}
    (delivers : Delivers f stop next dst slot g) (pc : h.pc = stop') (same : h.registers = g.registers) :
    Delivers f stop' next dst slot h :=
  ⟨pc, same ▸ delivers.size, same ▸ delivers.result, same ▸ delivers.kept⟩

/-- The operands are in place, and the registers below `next` hold what they held before. -/
structure Prepared (f : Frame) (stop next : Nat) (g : Frame) : Prop where
  pc : g.pc = stop
  size : g.registers.length = f.registers.length
  kept : ∀ r < next, g.registers[r]? = f.registers[r]?

theorem Delivers.prepared {f g : Frame} {stop next : Nat} {slot : Slot}
    (delivers : Delivers f stop (next + 1) next slot g) : Prepared f stop next g :=
  ⟨delivers.pc, delivers.size, fun r below => delivers.kept r (by omega) (by omega)⟩

theorem Prepared.trans {f g h : Frame} {middle stop next next' : Nat} (first : Prepared f middle next g)
    (second : Prepared g stop next' h) (up : next ≤ next') : Prepared f stop next h :=
  ⟨second.pc, second.size.trans first.size,
    fun r below => (second.kept r (by omega)).trans (first.kept r below)⟩

theorem Prepared.read {f g : Frame} {stop next r : Nat} {slot : Slot} (prepared : Prepared f stop next g)
    (below : r < next) (before : Registers.read f.registers r = .ok slot) :
    Registers.read g.registers r = .ok slot := by
  unfold Registers.read at before ⊢
  rw [prepared.kept r below]
  exact before

theorem Prepared.write {f g h : Frame} {stop next dst : Nat} {slot : Slot} (prepared : Prepared f stop next g)
    (room : dst < f.registers.length) (pc : h.pc = (g.apply (.write dst slot)).pc)
    (registers : h.registers = (g.apply (.write dst slot)).registers) :
    Delivers f (stop + 1) next dst slot h := by
  have written : h.registers = g.registers.set dst (some slot) := registers
  refine ⟨?_, ?_, ?_, ?_⟩
  · rw [pc, ← prepared.pc]
    rfl
  · rw [written, List.length_set, prepared.size]
  · have inside : dst < g.registers.length := by rw [prepared.size]; exact room
    simp only [Registers.read, written, List.getElem?_set_self inside]
  · intro r below other
    rw [written, List.getElem?_set_ne (Ne.symm other), prepared.kept r below]

/-- A jump that is taken leaves the registers as they are. -/
theorem step_goes {f : Frame} {at' target : Nat} {log log' : Log} {instr : Instr}
    (pc : f.pc = at') (found : p.instrs[at']? = some instr)
    (ready : instr.waitsFor? scene.store f.registers = none)
    (executed : instr.execute scene f.registers log = (.ok (.goto target), log')) :
    ∃ g, f.step p {} scene log = .running g log' ∧ g.pc = target ∧ g.registers = f.registers := by
  have step := step_executes (o := {}) log (pc ▸ found) rfl ready
  rw [executed] at step
  exact ⟨_, step, f.passed_pc instr _, f.passed_registers instr _⟩

theorem step_proceeds {f : Frame} {at' : Nat} {log log' : Log} {instr : Instr}
    (pc : f.pc = at') (found : p.instrs[at']? = some instr)
    (ready : instr.waitsFor? scene.store f.registers = none)
    (executed : instr.execute scene f.registers log = (.ok .proceed, log')) :
    ∃ g, f.step p {} scene log = .running g log' ∧ g.pc = at' + 1 ∧ g.registers = f.registers := by
  have step := step_executes (o := {}) log (pc ▸ found) rfl ready
  rw [executed] at step
  exact ⟨_, step, (f.passed_pc instr _).trans (congrArg (· + 1) pc), f.passed_registers instr _⟩

theorem step_stuck {f : Frame} {at' : Nat} {log log' : Log} {instr : Instr} {failure : Failure}
    (pc : f.pc = at') (found : p.instrs[at']? = some instr)
    (ready : instr.waitsFor? scene.store f.registers = none)
    (executed : instr.execute scene f.registers log = (.error failure, log')) :
    f.step p {} scene log = .stopped ⟨.error failure, f.counted, log'⟩ := by
  have step := step_executes (o := {}) log (pc ▸ found) rfl ready
  rw [executed] at step
  exact step

/-- A branch delivers for the whole, if the registers are those that the branches started from. -/
theorem Delivers.ofBranch {f g h : Frame} {stop next next' dst : Nat} {slot : Slot}
    (delivers : Delivers g stop next' dst slot h) (up : next ≤ next')
    (size : g.registers.length = f.registers.length)
    (kept : ∀ r < next, r ≠ dst → g.registers[r]? = f.registers[r]?) : Delivers f stop next dst slot h :=
  ⟨delivers.pc, delivers.size.trans size, delivers.result,
    fun r below other => (delivers.kept r (by omega) other).trans (kept r below other)⟩

/-- The last instruction of a piece of code writes its result. -/
theorem Prepared.performs {f g : Frame} {stop next dst : Nat} {log log' : Log} {instr : Instr}
    {result : Outcome Slot} (prepared : Prepared f stop next g) (room : dst < f.registers.length)
    (found : p.instrs[stop]? = some instr) (ready : instr.waitsFor? scene.store g.registers = none)
    (executed : instr.execute scene g.registers log = (result.map (.write dst), log')) :
    Performs p scene g log (Delivers f (stop + 1) next dst) (result.mapError .failed, log') := by
  rw [← prepared.pc] at found
  have step := step_executes (o := {}) log found rfl ready
  rw [executed] at step
  cases result with
  | error failure => exact ⟨_, .stop step⟩
  | ok slot =>
    refine ⟨_, .head step (.refl _ _), ?_⟩
    exact prepared.write room (g.passed_pc instr _) (g.passed_registers instr _)

end Frame

end LazyExpr
