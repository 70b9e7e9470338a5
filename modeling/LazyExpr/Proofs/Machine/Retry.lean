import LazyExpr.Proofs.Machine.Replay

namespace LazyExpr

/-- Whatever happened before, the host answers the same: variables depend on their names only, functions on
their arguments. -/
def Host.Repeatable (host : Host) : Prop := ∀ log event, host.answer log event = host.answer [] event

theorem Registry.call_repeats (r : Registry) (name : String) (args : List Value) :
    ∃ again, ∀ log, (r.call log name args).2 = log ++ again := by
  unfold call
  split
  · exact ⟨[], fun log => (List.append_nil log).symm⟩
  · split
    · exact ⟨[], fun log => (List.append_nil log).symm⟩
    · exact ⟨_, fun log => rfl⟩

/-- An instruction does the same again whenever it is tried, and the same events happen. -/
theorem Instr.execute_repeats {scene : Scene} (repeatable : scene.host.Repeatable) (instr : Instr)
    (regs : Registers) : ∃ result again, ∀ log, instr.execute scene regs log = (result, log ++ again) := by
  have quiet : (∀ log, instr.execute scene regs log = ((instr.execute scene regs []).1, log)) →
      ∃ result again, ∀ log, instr.execute scene regs log = (result, log ++ again) := by
    intro same
    refine ⟨(instr.execute scene regs []).1, [], fun log => ?_⟩
    rw [List.append_nil]
    exact same log
  cases instr with
  | loadParam dst name =>
    refine ⟨(scene.host.answer [] (.param name)).map (.write dst), [.param name], fun log => ?_⟩
    rw [← repeatable log]
    rfl
  | loadBinding dst name =>
    refine ⟨(scene.host.answer [] (.binding name)).map (.write dst), [.binding name], fun log => ?_⟩
    rw [← repeatable log]
    rfl
  | call dst name args =>
    simp only [execute]
    cases regs.readAll scene.store args with
    | error failure => exact ⟨.error failure, [], fun log => by rw [List.append_nil]⟩
    | ok values =>
      obtain ⟨again, logged⟩ := scene.host.registry.call_repeats name values
      refine ⟨(scene.host.answer [] (.call name values)).map (.write dst), again, fun log => ?_⟩
      rw [← repeatable log, ← logged log]
      exact congrArg (·, _) (writeResult_eq_map dst _)
  | _ => exact quiet fun _ => rfl

namespace Frame

/-- A step that has failed fails again in the same way, however often it is tried. -/
theorem step_repeats {p : Program} {scene : Scene} (repeatable : scene.host.Repeatable) {g g' : Frame}
    {log again : Log} {failure : Failure}
    (run : g.step p {} scene log = .stopped ⟨.error failure, g', log ++ again⟩)
    (later : Log) : g.step p {} scene later = .stopped ⟨.error failure, g', later ++ again⟩ := by
  have outcomes := step_outcomes p {} scene g log
  rw [run] at outcomes
  generalize logged : log ++ again = log', result : (Except.error failure : Outcome Halt) = ended at outcomes
  cases outcomes with
  | done behind =>
    rw [step_done behind, ← result, List.append_right_eq_self.mp logged, List.append_nil]
  | obstructed _ obstacle => cases obstacle
  | waits => cases result
  | @fails instr failure' log' found free ready executed =>
    cases result
    obtain ⟨outcome, again', repeats⟩ := instr.execute_repeats repeatable g.registers
    have first := repeats log
    rw [executed] at first
    cases first
    rw [step_executes later found free ready, repeats later, List.append_cancel_left logged]

end Frame

namespace Session

variable {p : Program} {host : Host} {t : Regime} {eventual : Nat → Value} {s s' : Session} {known : Nat → Prop}
variable {failure : Failure} {again : Log}

/-- The frame has come to where the run with all handles completed fails. Each failed run has left the event of the
failing step, if there is one, in the log once more. -/
def Stalls (p : Program) (host : Host) (eventual : Nat → Value) (failure : Failure) (again : Log) (s : Session) :
    Prop :=
  ∃ g g' log, Frame.Steps p {} ⟨host, s.store.completed eventual, false⟩ (Frame.fresh p) [] g log ∧
    Frame.Alike s.frame g ∧
    g.step p {} ⟨host, s.store.completed eventual, false⟩ log = .stopped ⟨.error failure, g', log ++ again⟩ ∧
    again.length ≤ 1 ∧ s.log = log ++ (List.replicate s.failures again).flatten

theorem flatten_replicate_append (n : Nat) (again : Log) :
    (List.replicate n again).flatten ++ again = (List.replicate (n + 1) again).flatten := by
  rw [List.replicate_succ', List.flatten_concat]

/-- The next run of a session that stalls fails at once. -/
theorem Stalls.finish (forward : p.Forward) (repeatable : host.Repeatable)
    (sound : Frame.Sound p t (fun slot => slot.pending? s.store = none) s.frame known)
    (stalls : Stalls p host eventual failure again s) :
    (s.finish p host {} false).result = .error failure ∧ (s.finish p host {} false).log = s.log ++ again ∧
      Stalls p host eventual failure again (s.after (s.finish p host {} false)) := by
  obtain ⟨g, g', log, steps, alike, fails, short, logged⟩ := stalls
  have mirrors :=
    sound.step_mirrors ⟨host, s.store, false⟩ ⟨host, s.store.completed eventual, false⟩ s.log alike rfl
    (Store.extends_completed eventual s.store) (Store.ready_completed eventual s.store)
  have repeats := Frame.step_repeats repeatable fails s.log
  generalize run : s.frame.step p {} ⟨host, s.store, false⟩ s.log = progress at mirrors
  cases mirrors with
  | running step _ | done step _ | detached step _ => cases repeats.symm.trans step
  | @failed f' _ _ _ step alike' =>
    cases repeats.symm.trans step
    have ended : s.finish p host {} false = ⟨.error failure, f', s.log ++ again⟩ :=
      Frame.run_eq_of_ends forward (.stop run)
    obtain ⟨pc, registers, _⟩ := Frame.step_stopped run
    rw [ended]
    refine ⟨rfl, rfl, g, g', log, steps, ?_, fails, short, ?_⟩
    · exact ⟨alike.pc.trans pc.symm, alike.registers.trans registers.symm⟩
    · simp only [after]
      rw [logged, List.append_assoc, flatten_replicate_append]

/-- Once a run has failed, the session stalls. -/
theorem Reached.stalls (forward : p.Forward) (bounded : RegistersBelow p.registers p.instrs)
    (safe : p.Safe t 0 fun _ => False) (repeatable : host.Repeatable)
    (reached : Reached p host t.trusted (Move.Scheduled eventual) s) (failed : s.failures ≠ 0) :
    ∃ failure again, Stalls p host eventual failure again s := by
  induction reached with
  | fresh store => exact absurd rfl failed
  | @turn s s' move reached allowed turn ih =>
    obtain ⟨known, sound⟩ := reached.sound forward bounded safe
    cases turn with
    | @run o cancelled keeps =>
      cases allowed
      by_cases before : s.failures = 0
      · have follows := reached.follows forward bounded safe before
        obtain ⟨g, log, steps, mirrors⟩ := follows.finish forward bounded sound keeps
        simp only [after, before] at failed
        simp only [Stalls, after, before]
        generalize s.finish p host {} false = finish at mirrors failed
        cases mirrors with
        | done | detached => exact absurd rfl failed
        | @failed f' g' failure log' step alike =>
          obtain ⟨pc, registers, last, short, logged⟩ := Frame.step_stopped step
          have events : log' = log ++ last := logged
          subst events
          refine ⟨failure, last, g, g', log, steps, ?_, step, short, ?_⟩
          · exact ⟨pc.symm.trans alike.pc, registers.symm.trans alike.registers⟩
          · rw [Nat.zero_add, List.replicate_one, List.flatten_singleton]
      · obtain ⟨failure, again, stalls⟩ := ih before
        exact ⟨failure, again, (stalls.finish forward repeatable sound).2.2⟩
    | complete completed =>
      cases allowed
      obtain ⟨failure, again, g, g', log, rest⟩ := ih failed
      refine ⟨failure, again, g, g', log, ?_⟩
      rw [Store.completed_complete completed]
      exact rest

/-- A session that stalls ends as the run with all handles completed, but for the events of the failing step. -/
theorem Stalls.replay (forward : p.Forward) (stalls : Stalls p host eventual failure again s) :
    (p.replay host (s.store.completed eventual)).result = .error failure ∧ again.length ≤ 1 ∧
      again <:+ (p.replay host (s.store.completed eventual)).log ∧ s.log ++ again =
        (p.replay host (s.store.completed eventual)).log ++ (List.replicate s.failures again).flatten := by
  obtain ⟨g, g', log, steps, _, fails, short, logged⟩ := stalls
  rw [Program.replay, Frame.run_eq_of_ends forward (steps.ends (.stop fails))]
  refine ⟨rfl, short, List.suffix_append log again, ?_⟩
  rw [logged, List.append_assoc, List.append_assoc, flatten_replicate_append, List.replicate_succ,
    List.flatten_cons]

end Session

end LazyExpr
