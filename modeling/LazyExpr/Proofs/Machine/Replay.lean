import LazyExpr.Proofs.Machine.Completion

namespace LazyExpr

namespace Frame

/-- Frames that have come equally far. They may have counted differently and be detached or not. -/
structure Alike (f g : Frame) : Prop where
  pc : g.pc = f.pc
  registers : g.registers = f.registers

/-- How the step of a frame is matched where nothing is pending: by the same step, except that the frame that
would be detached goes on. -/
inductive Mirrors (p : Program) (scene : Scene) (g : Frame) (log : Log) : Progress → Prop
  | running {f' g' log'} : g.step p {} scene log = .running g' log' → Alike f' g' →
      Mirrors p scene g log (.running f' log')
  | done {f' slot} : g.step p {} scene log = .stopped ⟨.ok (.done slot), g, log⟩ → Alike f' g →
      Mirrors p scene g log (.stopped ⟨.ok (.done slot), f', log⟩)
  | failed {f' g' failure log'} : g.step p {} scene log = .stopped ⟨.error failure, g', log'⟩ → Alike f' g' →
      Mirrors p scene g log (.stopped ⟨.error failure, f', log'⟩)
  | detached {f' g' point h} : g.step p {} scene log = .running g' log → Alike f' g →
      Mirrors p scene g log (.stopped ⟨.ok (.detached point h), f', log⟩)

variable {p : Program} {t : Regime} {scene : Scene} {f g f' : Frame} {known : Nat → Prop} {log log' : Log}
variable {finish : Finish}

theorem Alike.counted (alike : Alike f g) : Alike f.counted g.counted := ⟨alike.pc, alike.registers⟩

theorem Alike.passed (alike : Alike f g) (instr : Instr) (action : Action) :
    Alike (f.passed instr action) (g.passed instr action) := by
  obtain ⟨pc, registers⟩ := alike
  cases action <;> constructor <;> simp only [Frame.passed, Frame.apply, Frame.counted, pc, registers]

/-- No instruction other than one that waits can tell whether a handle is pending. -/
theorem Sound.step_mirrors (scene scene' : Scene) (log : Log)
    (sound : Sound p t (fun slot => slot.pending? scene.store = none) f known) (alike : Alike f g)
    (host : scene'.host = scene.host)
    (more : scene.store.Extends scene'.store) (complete : ∀ slot : Slot, slot.pending? scene'.store = none) :
    Mirrors p scene' g log (f.step p {} scene log) := by
  have idle : ∀ instr : Instr, instr.waitsFor? scene'.store g.registers = none := by
    intro instr
    cases instr with
    | await dst src point =>
      simp only [Instr.waitsFor?]
      split
      · rw [complete, Option.map_none]
      · rfl
    | _ => rfl
  have outcomes := step_outcomes p {} scene f log
  generalize f.step p {} scene log = progress at outcomes
  cases outcomes with
  | done behind =>
    have step : g.step p {} scene' log = .stopped ⟨g.result, g, log⟩ := step_done (alike.pc ▸ behind)
    have same : g.result = f.result := by rw [result, result, alike.registers]
    rw [same] at step
    unfold result at step ⊢
    cases read : Registers.read f.registers 0 with
    | error failure =>
      rw [read] at step
      exact .failed step alike
    | ok slot =>
      rw [read] at step
      exact .done step alike
  | obstructed _ obstacle => cases obstacle
  | @waits instr point h found _ waits =>
    have step := step_executes (o := {}) log (alike.pc ▸ found) rfl (idle instr)
    obtain ⟨dst, src, same, read, _⟩ := Instr.waitsFor?_eq_some waits
    subst same
    simp only [Instr.execute, alike.registers, read] at step
    exact .detached step ⟨alike.pc, alike.registers⟩
  | @fails instr failure log' found _ ready executed =>
    have step := step_executes (o := {}) log (alike.pc ▸ found) rfl (idle instr)
    have operands := sound.operands_ready found ready
    rw [alike.registers, Instr.execute_extends host more operands, executed] at step
    exact .failed step alike.counted
  | @passes instr action log' found _ ready executed =>
    have step := step_executes (o := {}) log (alike.pc ▸ found) rfl (idle instr)
    have operands := sound.operands_ready found ready
    rw [alike.registers, Instr.execute_extends host more operands, executed] at step
    exact .running step (alike.passed instr action)

/-- A whole run is matched step by step up to its end. -/
theorem Ends.mirrored (bounded : RegistersBelow p.registers p.instrs) (ends : Ends p {} scene f log finish)
    (sound : Sound p t (fun slot => slot.pending? scene.store = none) f known) (alike : Alike f g)
    (scene' : Scene) (host : scene'.host = scene.host) (more : scene.store.Extends scene'.store)
    (complete : ∀ slot : Slot, slot.pending? scene'.store = none)
    (keeps : scene.host.Keeps t.trusted scene.store log finish.log) :
    ∃ g' log', Steps p {} scene' g log g' log' ∧ Mirrors p scene' g' log' (.stopped finish) := by
  induction ends generalizing g known with
  | @stop f log finish run =>
    have mirrors := sound.step_mirrors scene scene' log alike host more complete
    rw [run] at mirrors
    exact ⟨g, log, .refl g log, mirrors⟩
  | @head f h log log' finish run rest ih =>
    have mirrors := sound.step_mirrors scene scene' log alike host more complete
    rw [run] at mirrors
    cases mirrors with
    | @running _ g' _ step alike' =>
      obtain ⟨known', sound'⟩ :=
        sound.step bounded (fun _ ready => ready) run fun event slot same trusted answered =>
          keeps log event slot List.prefix_rfl (same ▸ rest.log_grows) trusted answered
      obtain ⟨g'', log'', steps, last⟩ := ih sound' alike' (keeps.mono (step_running_log run) List.prefix_rfl)
      exact ⟨g'', log'', .head step steps, last⟩

end Frame

/-- The moves of a schedule in which every handle is completed with its eventual value, and runs are neither
limited nor cancelled. -/
inductive Move.Scheduled (eventual : Nat → Value) : Move → Prop
  | run : Scheduled eventual (.run {} false)
  | complete (id) : Scheduled eventual (.complete (.cell id) (eventual id))

/-- The run of a program where all handles have been completed beforehand. -/
def Program.replay (p : Program) (host : Host) (store : Store) : Finish :=
  (Frame.fresh p).run p {} ⟨host, store, false⟩ []

namespace Session

variable {p : Program} {host : Host} {t : Regime} {eventual : Nat → Value} {s s' : Session} {move : Move}

/-- The frame has come as far as a frame on its way through the same program with all handles completed. -/
def Follows (p : Program) (host : Host) (eventual : Nat → Value) (s : Session) : Prop :=
  ∃ g, Frame.Steps p {} ⟨host, s.store.completed eventual, false⟩ (Frame.fresh p) [] g s.log ∧ Frame.Alike s.frame g

/-- A run of a session that follows is matched to its end. -/
theorem Follows.finish (forward : p.Forward) (bounded : RegistersBelow p.registers p.instrs) {known : Nat → Prop}
    (sound : Frame.Sound p t (fun slot => slot.pending? s.store = none) s.frame known)
    (follows : Follows p host eventual s)
    (keeps : host.Keeps t.trusted s.store s.log (s.finish p host {} false).log) :
    ∃ g log, Frame.Steps p {} ⟨host, s.store.completed eventual, false⟩ (Frame.fresh p) [] g log ∧
      Frame.Mirrors p ⟨host, s.store.completed eventual, false⟩ g log (.stopped (s.finish p host {} false)) := by
  obtain ⟨g, steps, alike⟩ := follows
  have ends : Frame.Ends p {} ⟨host, s.store, false⟩ s.frame s.log (s.finish p host {} false) :=
    Frame.run_ends forward s.frame s.log
  obtain ⟨g', log', steps', mirrors⟩ := ends.mirrored bounded sound alike
    ⟨host, s.store.completed eventual, false⟩ rfl (Store.extends_completed eventual s.store)
    (Store.ready_completed eventual s.store) keeps
  exact ⟨g', log', steps.trans steps', mirrors⟩

/-- Up to the first failure, no schedule takes the frame anywhere else than the run with all handles
completed. -/
theorem Reached.follows (forward : p.Forward) (bounded : RegistersBelow p.registers p.instrs)
    (safe : p.Safe t 0 fun _ => False) (reached : Reached p host t.trusted (Move.Scheduled eventual) s)
    (unfailed : s.failures = 0) : Follows p host eventual s := by
  induction reached with
  | fresh store => exact ⟨_, .refl _ _, rfl, rfl⟩
  | @turn s s' move reached allowed turn ih =>
    obtain ⟨known, sound⟩ := reached.sound forward bounded safe
    cases turn with
    | @run o cancelled keeps =>
      cases allowed
      cases result : (s.finish p host {} false).result with
      | error failure =>
        simp only [after, result] at unfailed
        cases unfailed
      | ok halt =>
        simp only [after, result] at unfailed
        obtain ⟨g, log, steps, mirrors⟩ := (ih unfailed).finish forward bounded sound keeps
        simp only [Follows, after]
        generalize s.finish p host {} false = finish at mirrors result
        cases mirrors with
        | done step alike => exact ⟨g, steps, alike⟩
        | failed => cases result
        | detached step alike => exact ⟨g, steps, alike⟩
    | complete completed =>
      cases allowed
      obtain ⟨g, steps, alike⟩ := ih unfailed
      refine ⟨g, ?_, alike⟩
      rw [Store.completed_complete completed]
      exact steps

/-- The first run that is done or fails does so as the run with all handles completed. -/
theorem Follows.replay (forward : p.Forward) (bounded : RegistersBelow p.registers p.instrs) {known : Nat → Prop}
    (sound : Frame.Sound p t (fun slot => slot.pending? s.store = none) s.frame known)
    (follows : Follows p host eventual s)
    (keeps : host.Keeps t.trusted s.store s.log (s.finish p host {} false).log)
    (ended : ∀ point h, (s.finish p host {} false).result ≠ .ok (.detached point h)) :
    (p.replay host (s.store.completed eventual)).result = (s.finish p host {} false).result ∧
      (p.replay host (s.store.completed eventual)).log = (s.finish p host {} false).log := by
  obtain ⟨g, log, steps, mirrors⟩ := follows.finish forward bounded sound keeps
  generalize s.finish p host {} false = finish at mirrors ended
  cases mirrors with
  | done step _ | failed step _ =>
    rw [Program.replay, Frame.run_eq_of_ends forward (steps.ends (.stop step))]
    exact ⟨rfl, rfl⟩
  | detached => exact absurd rfl (ended _ _)

end Session

end LazyExpr
