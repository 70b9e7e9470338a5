import LazyExpr.Proofs.Machine.Soundness

namespace LazyExpr

/-- Every trusted lookup that was made between two logs gave a slot that was ready. -/
def Host.Keeps (host : Host) (trusted : Event → Prop) (store : Store) (start finish : Log) : Prop :=
  ∀ before event slot, start <+: before → before ++ [event] <+: finish → trusted event →
    host.answer before event = .ok slot → slot.pending? store = none

theorem Host.Keeps.mono {host : Host} {trusted : Event → Prop} {store : Store} {start start' finish finish' : Log}
    (keeps : host.Keeps trusted store start finish) (later : start <+: start') (earlier : finish' <+: finish) :
    host.Keeps trusted store start' finish' :=
  fun before event slot from_ to_ => keeps before event slot (later.trans from_) (to_.trans earlier)

theorem Host.keeps_of_none {trusted : Event → Prop} (none : ∀ event, ¬ trusted event) (host : Host) (store : Store)
    (start finish : Log) : host.Keeps trusted store start finish :=
  fun _ event _ _ _ holds => absurd holds (none event)

namespace Frame

variable {p : Program} {o : Options} {scene : Scene} {f g : Frame} {log log' : Log} {finish : Finish}

theorem step_running_log (run : f.step p o scene log = .running g log') : log <+: log' := by
  have outcomes := step_outcomes p o scene f log
  rw [run] at outcomes
  cases outcomes with
  | @passes instr action _ _ _ _ executed =>
    have grows : (instr.execute scene f.registers log).2 = log' := congrArg Prod.snd executed
    rcases instr.execute_log with same | ⟨event, more⟩
    · exact (same.symm.trans grows) ▸ List.prefix_rfl
    · exact (more.symm.trans grows) ▸ List.prefix_append log [event]

/-- A run that stops leaves the frame where it is, but for counting. One event may still have happened. -/
theorem step_stopped (run : f.step p o scene log = .stopped finish) : finish.frame.pc = f.pc ∧
    finish.frame.registers = f.registers ∧ ∃ last, last.length ≤ 1 ∧ finish.log = log ++ last := by
  have outcomes := step_outcomes p o scene f log
  rw [run] at outcomes
  cases outcomes with
  | done | obstructed | waits => exact ⟨rfl, rfl, [], Nat.zero_le 1, (List.append_nil log).symm⟩
  | @fails instr failure log' _ _ _ executed =>
    refine ⟨rfl, rfl, ?_⟩
    have grows : (instr.execute scene f.registers log).2 = log' := congrArg Prod.snd executed
    rcases instr.execute_log with same | ⟨event, more⟩
    · exact ⟨[], Nat.zero_le 1, (grows.symm.trans same).trans (List.append_nil log).symm⟩
    · exact ⟨[event], Nat.le_refl 1, grows.symm.trans more⟩

theorem step_stopped_log (run : f.step p o scene log = .stopped finish) : log <+: finish.log := by
  obtain ⟨_, _, last, _, logged⟩ := step_stopped run
  exact ⟨last, logged.symm⟩

theorem Steps.log_grows (steps : Steps p o scene f log g log') : log <+: log' := by
  induction steps with
  | refl => exact List.prefix_rfl
  | head run _ ih => exact (step_running_log run).trans ih

theorem Ends.log_grows (ends : Ends p o scene f log finish) : log <+: finish.log := by
  induction ends with
  | stop run => exact step_stopped_log run
  | head run _ ih => exact (step_running_log run).trans ih

/-- What a run has passed, its end is still ahead of. -/
theorem Steps.rest (steps : Steps p o scene f log g log') (ends : Ends p o scene f log finish) :
    Ends p o scene g log' finish := by
  induction steps with
  | refl => exact ends
  | head run _ ih =>
    cases ends with
    | stop run' => cases run.symm.trans run'
    | head run' rest =>
      cases run.symm.trans run'
      exact ih rest

/-- The steps up to the last one of a run. -/
theorem Ends.last (ends : Ends p o scene f log finish) :
    ∃ g log', Steps p o scene f log g log' ∧ g.step p o scene log' = .stopped finish := by
  induction ends with
  | @stop f log finish run => exact ⟨f, log, .refl f log, run⟩
  | head run _ ih =>
    obtain ⟨g, log', steps, last⟩ := ih
    exact ⟨g, log', .head run steps, last⟩

variable {t : Regime} {P : Slot → Prop} {known : Nat → Prop}

theorem Sound.same (sound : Sound p t P f known) (pc : g.pc = f.pc) (registers : g.registers = f.registers) :
    Sound p t P g known :=
  ⟨registers ▸ sound.size, pc ▸ sound.safe, registers ▸ sound.holds⟩

/-- All frames that a run passes are sound, as long as trusted lookups give slots that are ready. -/
theorem Sound.steps (bounded : RegistersBelow p.registers p.instrs) (steps : Steps p o scene f log g log')
    (sound : Sound p t (fun slot => slot.pending? scene.store = none) f known)
    (keeps : scene.host.Keeps t.trusted scene.store log log') :
    ∃ known', Sound p t (fun slot => slot.pending? scene.store = none) g known' := by
  induction steps generalizing known with
  | refl => exact ⟨known, sound⟩
  | @head f g h log log' log'' run rest ih =>
    have grows := step_running_log run
    obtain ⟨known', sound'⟩ := sound.step bounded (fun _ ready => ready) run fun event slot same trusted answered =>
      keeps log event slot List.prefix_rfl (same ▸ rest.log_grows) trusted answered
    exact ih sound' (keeps.mono grows List.prefix_rfl)

end Frame

/-- A frame between two runs, with the cells as they are by then, what happened so far, and how many runs have
failed. -/
structure Session where
  frame : Frame
  store : Store
  log : Log := []
  failures : Nat := 0

/-- What can be done to a session: the frame is run, or a handle is completed. -/
inductive Move
  | run (o : Options) (cancelled : Bool)
  | complete (h : Handle) (value : Value)

namespace Session

/-- How a run ends that is started now. -/
def finish (s : Session) (p : Program) (host : Host) (o : Options) (cancelled : Bool) : Finish :=
  s.frame.run p o ⟨host, s.store, cancelled⟩ s.log

def after (s : Session) (finish : Finish) : Session where
  frame := finish.frame
  store := s.store
  log := finish.log
  failures := match finish.result with
    | .ok _ => s.failures
    | .error _ => s.failures + 1

/-- One move, during which the host keeps to what is trusted of it. -/
inductive Turn (p : Program) (host : Host) (trusted : Event → Prop) (s : Session) : Move → Session → Prop
  | run {o cancelled} : host.Keeps trusted s.store s.log (s.finish p host o cancelled).log →
      Turn p host trusted s (.run o cancelled) (s.after (s.finish p host o cancelled))
  | complete {h value store} : h.complete s.store value = .ok store →
      Turn p host trusted s (.complete h value) { s with store := store }

/-- The sessions that a program can come to by moves that are allowed, in any order. -/
inductive Reached (p : Program) (host : Host) (trusted : Event → Prop) (allowed : Move → Prop) : Session → Prop
  | fresh (store) : Reached p host trusted allowed { frame := .fresh p, store := store }
  | turn {s s' move} : Reached p host trusted allowed s → allowed move → Turn p host trusted s move s' →
      Reached p host trusted allowed s'

end Session

end LazyExpr
