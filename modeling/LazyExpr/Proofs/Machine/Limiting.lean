import LazyExpr.Proofs.Machine.Standing

namespace LazyExpr

namespace Options

def unlimited (o : Options) : Options := { o with maxInstructions := none }

def limitedTo (o : Options) (limit : Nat) : Options := { o with maxInstructions := some limit }

end Options

namespace Frame

/-- This many instructions that are passed in a row. -/
inductive Passes (p : Program) (o : Options) (scene : Scene) : Nat → Frame → Log → Frame → Log → Prop
  | zero {f log} : Passes p o scene 0 f log f log
  | succ {count f g h log log' log''} : f.step p o scene log = .running g log' →
      Passes p o scene count g log' h log'' → Passes p o scene (count + 1) f log h log''

/-- A run to its end with the number of instructions that it executes. One that fails or has to wait is among
them. -/
inductive Executes (p : Program) (o : Options) (scene : Scene) : Nat → Frame → Log → Finish → Prop
  | behind {f log} : p.instrs[f.pc]? = none → Executes p o scene 0 f log ⟨f.result, f, log⟩
  | last {f log instr finish} : p.instrs[f.pc]? = some instr → f.step p o scene log = .stopped finish →
      Executes p o scene 1 f log finish
  | next {count f g log log' finish} : f.step p o scene log = .running g log' →
      Executes p o scene count g log' finish → Executes p o scene (count + 1) f log finish

/-- The frame stands in front of an instruction that the limit does not allow for any more. -/
structure Spent (p : Program) (limit : Nat) (f : Frame) : Prop where
  ahead : ∃ instr, p.instrs[f.pc]? = some instr
  steps : limit ≤ f.steps

variable {p : Program} {o : Options} {scene : Scene} {f g : Frame} {log log' : Log} {finish : Finish}
variable {count limit : Nat}

theorem obstacle_within {steps : Nat} (o : Options) (cancelled : Bool) (within : steps ≤ limit) :
    obstacle? (o.limitedTo limit) cancelled steps = obstacle? o.unlimited cancelled steps :=
  if_neg (Nat.not_lt.mpr within)

theorem obstacle_beyond {steps : Nat} (o : Options) (cancelled : Bool) (beyond : limit < steps) :
    obstacle? (o.limitedTo limit) cancelled steps = some (.tooManyInstructions limit) :=
  if_pos beyond

/-- As long as the limit is not reached it makes no difference. -/
theorem step_within (o : Options) (scene : Scene) (log : Log) (within : f.steps < limit) :
    f.step p (o.limitedTo limit) scene log = f.step p o.unlimited scene log := by
  have same := obstacle_within o scene.cancelled (Nat.succ_le_of_lt within)
  simp only [step, same]

/-- Once it is reached it stops the frame in front of any instruction. -/
theorem Spent.step (spent : f.Spent p limit) (o : Options) (scene : Scene) (log : Log) :
    f.step p (o.limitedTo limit) scene log = .stopped ⟨.error (.tooManyInstructions limit), f.counted, log⟩ := by
  obtain ⟨⟨instr, found⟩, reached⟩ := spent
  exact step_obstructed found (obstacle_beyond o scene.cancelled (Nat.lt_succ_of_le reached))

theorem Spent.counted (spent : f.Spent p limit) : f.counted.Spent p limit :=
  ⟨spent.ahead, Nat.le_succ_of_le spent.steps⟩

namespace Executes

theorem ends (executes : Executes p o scene count f log finish) : Ends p o scene f log finish := by
  induction executes with
  | behind past => exact .stop (step_done past)
  | last _ run => exact .stop run
  | next run _ ih => exact .head run ih

theorem ofEnds (ends : Ends p o scene f log finish) : ∃ count, Executes p o scene count f log finish := by
  induction ends with
  | @stop f log finish run =>
    cases found : p.instrs[f.pc]? with
    | none =>
      cases (step_done found).symm.trans run
      exact ⟨0, .behind found⟩
    | some instr => exact ⟨1, .last found run⟩
  | head run _ ih =>
    obtain ⟨count, rest⟩ := ih
    exact ⟨count + 1, .next run rest⟩

/-- The frame counts the instructions that are executed. -/
theorem steps (executes : Executes p o scene count f log finish) : finish.frame.steps = f.steps + count := by
  induction executes with
  | behind => rfl
  | @last f log instr finish found run =>
    have outcomes := step_outcomes p o scene f log
    rw [run] at outcomes
    cases outcomes with
    | done past => cases found.symm.trans past
    | obstructed | waits | fails => rfl
  | next run _ ih =>
    rw [ih, (step_running run).2]
    omega

/-- A limit that allows for all instructions of a run leaves it as it is. -/
theorem within (executes : Executes p o.unlimited scene count f log finish) (enough : f.steps + count ≤ limit) :
    Ends p (o.limitedTo limit) scene f log finish := by
  induction executes with
  | behind past => exact .stop (step_done past)
  | last _ run => exact .stop ((step_within o scene _ enough).trans run)
  | @next count f g log log' finish run _ ih =>
    have counted := (step_running run).2
    have further : f.steps < limit := by omega
    exact .head ((step_within o scene log further).trans run) (ih (by omega))

/-- A limit that allows only for some of them stops the run right behind these. -/
theorem beyond (executes : Executes p o.unlimited scene count f log finish) {allowed : Nat}
    (short : allowed < count)
    (total : f.steps + allowed = limit) :
    ∃ g log', Passes p o.unlimited scene allowed f log g log' ∧ log' <+: finish.log ∧ g.Spent p limit ∧
      Ends p (o.limitedTo limit) scene f log ⟨.error (.tooManyInstructions limit), g.counted, log'⟩ := by
  induction executes generalizing allowed with
  | behind => exact absurd short (Nat.not_lt_zero allowed)
  | @last f log instr finish found run =>
    cases Nat.lt_one_iff.mp short
    have spent : f.Spent p limit := ⟨⟨instr, found⟩, Nat.le_of_eq total.symm⟩
    exact ⟨f, log, .zero, step_stopped_log run, spent, .stop (spent.step o scene log)⟩
  | @next count f g log log' finish run rest ih =>
    obtain ⟨found, counted⟩ := step_running run
    cases allowed with
    | zero =>
      have spent : f.Spent p limit := ⟨found, Nat.le_of_eq total.symm⟩
      exact ⟨f, log, .zero, (step_running_log run).trans rest.ends.log_grows, spent, .stop (spent.step o scene log)⟩
    | succ allowed =>
      have further : f.steps < limit := by omega
      obtain ⟨h, log'', passes, grows, spent, ends⟩ := ih (Nat.lt_of_succ_lt_succ short) (by omega)
      exact ⟨h, log'', .succ run passes, grows, spent, .head ((step_within o scene log further).trans run) ends⟩

end Executes

end Frame

namespace Session

variable {p : Program} {o : Options} {flag : Nat → Bool} {result : Outcome Halt} {s s' : Session} {limit : Nat}

theorem finish_spent (forward : p.Forward) (spent : s.frame.Spent p limit) (o : Options) (host : Host)
    (cancelled : Bool) : s.finish p host (o.limitedTo limit) cancelled =
      ⟨.error (.tooManyInstructions limit), s.frame.counted, s.log⟩ :=
  Frame.run_eq_of_ends forward (.stop (spent.step o _ s.log))

theorem Runs.spent (runs : s.Runs p (o.limitedTo limit) flag result s') (spent : s.frame.Spent p limit) :
    s'.frame = s.frame.counted ∧ s'.log = s.log := by
  induction runs with
  | stop host step =>
    cases (spent.step o ⟨host, _, _⟩ _).symm.trans step
    exact ⟨rfl, rfl⟩
  | pass host step => cases (spent.step o ⟨host, _, _⟩ _).symm.trans step
  | complete _ _ ih => exact ih spent

/-- Once the limit is used up nothing happens any more. -/
theorem Onward.spent (onward : Onward p (o.limitedTo limit) s s') (spent : s.frame.Spent p limit) :
    s'.frame.Spent p limit ∧ s'.frame.pc = s.frame.pc ∧ s'.frame.registers = s.frame.registers ∧
      s'.log = s.log := by
  induction onward with
  | refl => exact ⟨spent, rfl, rfl, rfl⟩
  | run _ runs ih =>
    obtain ⟨spent', same⟩ := ih
    obtain ⟨frame, log⟩ := runs.spent spent'
    rw [frame, log]
    exact ⟨spent'.counted, same⟩
  | complete _ _ ih => exact ih

end Session

/-- A limit cuts a run off at one place and changes nothing else. If it allows for all instructions that the run
executes without a limit, the run is the same. If not, exactly as many are executed as it allows for, the log is
what these have left there, and the run fails; so do all later ones, without another step and without a question to
the host, whatever the host and the flag are by then and whatever has been completed. -/
theorem Program.limit_cuts (c : TypedCode) (o : Options) (host : Host) (store : Store) (cancelled : Bool) :
    let p := assemble c
    let scene : Scene := ⟨host, store, cancelled⟩
    let fresh : Session := { frame := .fresh p, store := store }
    let whole := fresh.finish p host o.unlimited cancelled
    ∃ count, Frame.Executes p o.unlimited scene count fresh.frame [] whole ∧ whole.frame.steps = count ∧ ∀ limit,
      let cut := fresh.finish p host (o.limitedTo limit) cancelled
      (count ≤ limit → cut = whole) ∧
      (limit < count → ∃ g log, Frame.Passes p o.unlimited scene limit fresh.frame [] g log ∧ log <+: whole.log ∧
        cut = ⟨.error (.tooManyInstructions limit), g.counted, log⟩ ∧
        ∀ s, Session.Onward p (o.limitedTo limit) (fresh.after cut) s → ∀ host' cancelled',
          let again := s.finish p host' (o.limitedTo limit) cancelled'
          again.result = .error (.tooManyInstructions limit) ∧ again.frame.pc = g.pc ∧
            again.frame.registers = g.registers ∧ again.log = log) := by
  intro p scene fresh whole
  have forward : p.Forward := assemble_forward c
  have ends : Frame.Ends p o.unlimited scene fresh.frame [] whole := Frame.run_ends forward fresh.frame []
  obtain ⟨count, executes⟩ := Frame.Executes.ofEnds ends
  have counted : whole.frame.steps = count := executes.steps.trans (Nat.zero_add count)
  refine ⟨count, executes, counted, fun limit => ⟨fun enough => ?_, fun short => ?_⟩⟩
  · exact Frame.run_eq_of_ends forward (executes.within ((Nat.zero_add count).symm ▸ enough))
  · obtain ⟨g, log, passes, grows, spent, stopped⟩ := executes.beyond short (Nat.zero_add limit)
    have cut : fresh.finish p host (o.limitedTo limit) cancelled = _ := Frame.run_eq_of_ends forward stopped
    refine ⟨g, log, passes, grows, cut, fun s onward host' cancelled' => ?_⟩
    rw [cut] at onward
    obtain ⟨spent', pc, registers, logged⟩ := onward.spent spent.counted
    intro again
    have same : again = _ := Session.finish_spent forward spent' o host' cancelled'
    rw [same]
    exact ⟨rfl, pc, registers, logged⟩

end LazyExpr
