import LazyExpr.Proofs.Machine.Assembly
import LazyExpr.Proofs.Machine.Protocol

namespace LazyExpr

/-- Completing a handle leaves no handle pending that was ready. -/
theorem Handle.pending_complete {store store' : Store} {h h' : Handle} {value : Value}
    (completed : h.complete store value = .ok store') (pending : h'.isReady store' = false) :
    h'.isReady store = false := by
  rw [isReady, Option.isSome_eq_false_iff, Option.isNone_iff_eq_none] at pending ⊢
  cases found : h'.value? store with
  | none => rfl
  | some v => cases (value?_complete completed found).symm.trans pending

namespace Frame

/-- The frame is detached at the suspension point where it stands, with this handle to wait for. -/
structure StandsAt (p : Program) (f : Frame) (point : Nat) (h : Handle) : Prop where
  suspended : f.suspended = some point
  found : ∃ dst src, p.instrs[f.pc]? = some (.await dst src point) ∧
    Registers.read f.registers src = .ok (.handle h)

/-- A frame that is marked as detached stands at a suspension point of that number. -/
def Marked (p : Program) (f : Frame) : Prop := ∀ point, f.suspended = some point → ∃ h, StandsAt p f point h

variable {p : Program} {o : Options} {scene : Scene} {f g : Frame} {log log' : Log} {finish : Finish}
variable {point : Nat} {h : Handle}

theorem StandsAt.same (stands : StandsAt p f point h) (suspended : g.suspended = f.suspended) (pc : g.pc = f.pc)
    (registers : g.registers = f.registers) : StandsAt p g point h :=
  ⟨suspended.trans stands.suspended, pc ▸ registers ▸ stands.found⟩

theorem Marked.same (marked : Marked p f) (suspended : g.suspended = f.suspended) (pc : g.pc = f.pc)
    (registers : g.registers = f.registers) : Marked p g := by
  intro point mark
  obtain ⟨h, stands⟩ := marked point (suspended ▸ mark)
  exact ⟨h, stands.same suspended pc registers⟩

/-- An instruction that is passed leaves no mark behind: only one that waits can be marked, and it takes its mark
away. -/
theorem Marked.running (marked : Marked p f) (run : f.step p o scene log = .running g log') :
    g.suspended = none := by
  have outcomes := step_outcomes p o scene f log
  rw [run] at outcomes
  cases outcomes with
  | @passes instr action _ found _ _ _ =>
    cases await : instr.isAwait with
    | true => simp only [passed, await, if_true]
    | false =>
      simp only [passed, await, Bool.false_eq_true, if_false]
      cases mark : f.suspended with
      | none => rfl
      | some point =>
        obtain ⟨h, _, dst, src, found', _⟩ := marked point mark
        cases found.symm.trans found'
        cases await

theorem Marked.stopped (marked : Marked p f) (run : f.step p o scene log = .stopped finish) :
    Marked p finish.frame := by
  have outcomes := step_outcomes p o scene f log
  rw [run] at outcomes
  cases outcomes with
  | done => exact marked
  | obstructed | fails => exact marked.same rfl rfl rfl
  | @waits instr point h found _ waits =>
    obtain ⟨dst, src, same, read, _⟩ := Instr.waitsFor?_eq_some waits
    rintro point' ⟨⟩
    exact ⟨h, rfl, dst, src, same ▸ found, read⟩

/-- As long as its handle is pending, a detached frame is stopped where it stands. -/
theorem StandsAt.step (stands : StandsAt p f point h) (o : Options) (scene : Scene)
    (pending : h.isReady scene.store = false) (log : Log) :
    ∃ result, f.step p o scene log = .stopped ⟨result, f.counted, log⟩ ∧
      (obstacle? o scene.cancelled (f.steps + 1) = none → result = .ok (.detached point h)) ∧
      ∀ failure, obstacle? o scene.cancelled (f.steps + 1) = some failure → result = .error failure := by
  obtain ⟨suspended, dst, src, found, read⟩ := stands
  have waits : (Instr.await dst src point).waitsFor? scene.store f.registers = some (point, h) := by
    simp only [Instr.waitsFor?, read, Slot.pending?, pending]
    rfl
  cases obstacle : obstacle? o scene.cancelled (f.steps + 1) with
  | some failure =>
    refine ⟨_, step_obstructed found obstacle, fun free => ?_, fun failure' same => ?_⟩
    · cases free
    · rw [Option.some.inj same]
  | none =>
    refine ⟨_, ?_, fun _ => rfl, fun failure same => ?_⟩
    · rw [step_waits found obstacle waits, ← suspended]
      rfl
    · cases same

end Frame

namespace Session

/-- A run of the frame of a session with these options: its result and the session that it leaves. The flag can be
raised and taken back while the run is in progress, so it is given by the number of tried instructions at which the
frame looks at it. Before each instruction the host may have changed, and handles may have been completed. -/
inductive Runs (p : Program) (o : Options) (flag : Nat → Bool) : Session → Outcome Halt → Session → Prop
  | stop {s : Session} {finish} (host : Host) :
      s.frame.step p o ⟨host, s.store, flag (s.frame.steps + 1)⟩ s.log = .stopped finish →
      Runs p o flag s finish.result (s.after finish)
  | pass {s s' : Session} {g log result} (host : Host) :
      s.frame.step p o ⟨host, s.store, flag (s.frame.steps + 1)⟩ s.log = .running g log →
      Runs p o flag { s with frame := g, log := log } result s' → Runs p o flag s result s'
  | complete {s s' : Session} {h : Handle} {value store result} : h.complete s.store value = .ok store →
      Runs p o flag { s with store := store } result s' → Runs p o flag s result s'

/-- What can happen to a session whose frame has these options: the frame is run, whatever the host and the flag do
meanwhile, or a handle is completed, in any order. -/
inductive Onward (p : Program) (o : Options) (s : Session) : Session → Prop
  | refl : Onward p o s s
  | run {s' s''} {flag : Nat → Bool} {result} : Onward p o s s' → Runs p o flag s' result s'' → Onward p o s s''
  | complete {s' : Session} {h : Handle} {value store} : Onward p o s s' → h.complete s'.store value = .ok store →
      Onward p o s { s' with store := store }

variable {p : Program} {o : Options} {flag : Nat → Bool} {result : Outcome Halt} {s s' : Session} {point : Nat}
variable {h : Handle} {slot : Slot}

/-- If nothing changes around the frame, the run ends as it does with the host, the handles and the flag that it
finds. -/
theorem Runs.ofEnds {host : Host} {cancelled : Bool} {f : Frame} {log : Log} {finish : Finish}
    (ends : Frame.Ends p o ⟨host, s.store, cancelled⟩ f log finish) :
    Runs p o (fun _ => cancelled) { s with frame := f, log := log } finish.result (s.after finish) := by
  induction ends with
  | @stop f log finish run =>
    exact @Runs.stop p o (fun _ => cancelled) { s with frame := f, log := log } finish host run
  | @head f g log log' finish run _ ih =>
    exact @Runs.pass p o (fun _ => cancelled) { s with frame := f, log := log } _ g log' _ host run ih

theorem runs_finish (forward : p.Forward) (s : Session) (o : Options) (host : Host) (cancelled : Bool) :
    s.Runs p o (fun _ => cancelled) (s.finish p host o cancelled).result (s.after (s.finish p host o cancelled)) :=
  .ofEnds (Frame.run_ends forward s.frame s.log)

/-- Jumps that lead forward let every run end, whatever the flag does. -/
theorem exists_runs (forward : p.Forward) (s : Session) (o : Options) (host : Host) (flag : Nat → Bool) :
    ∃ result s', s.Runs p o flag result s' := by
  induction ahead : p.instrs.length - s.frame.pc using Nat.strongRecOn generalizing s with
  | ind ahead ih =>
    cases step : s.frame.step p o ⟨host, s.store, flag (s.frame.steps + 1)⟩ s.log with
    | stopped finish => exact ⟨_, _, .stop host step⟩
    | running g log =>
      have further := Frame.running_pc_lt forward step
      obtain ⟨result, s', rest⟩ := ih (p.instrs.length - g.pc) (by omega) { s with frame := g, log := log } rfl
      exact ⟨result, s', .pass host step rest⟩

theorem Runs.marked (runs : s.Runs p o flag result s') (marked : s.frame.Marked p) : s'.frame.Marked p := by
  induction runs with
  | stop _ step => exact marked.stopped step
  | pass _ step _ ih =>
    refine ih fun point mark => ?_
    cases (marked.running step).symm.trans mark
  | complete _ _ ih => exact ih marked

/-- A run that is detached leaves a frame that stands at a suspension point and waits for the handle it names. -/
theorem Runs.detached (runs : s.Runs p o flag result s') (detached : result = .ok (.detached point h)) :
    s'.frame.StandsAt p point h ∧ h.isReady s'.store = false := by
  induction runs with
  | stop _ step =>
    obtain ⟨suspended, dst, src, found, read, pending⟩ := (Frame.Ends.stop step).detached detached
    exact ⟨⟨suspended, dst, src, found, read⟩, pending⟩
  | pass _ _ _ ih | complete _ _ ih => exact ih detached

/-- A run that is done leaves a frame behind its last instruction. -/
theorem Runs.done (runs : s.Runs p o flag result s') (done : result = .ok (.done slot)) :
    p.instrs[s'.frame.pc]? = none ∧ s'.frame.result = .ok (.done slot) := by
  induction runs with
  | stop _ step => exact (Frame.Ends.stop step).done done
  | pass _ _ _ ih | complete _ _ ih => exact ih done

/-- What is pending behind a run was pending before it. -/
theorem Runs.pending (runs : s.Runs p o flag result s') (pending : h.isReady s'.store = false) :
    h.isReady s.store = false := by
  induction runs with
  | stop => exact pending
  | pass _ _ _ ih => exact ih pending
  | complete completed _ ih => exact Handle.pending_complete completed (ih pending)

/-- A run of a detached frame whose handle stays pending ends where the frame stands, and the host is not asked for
anything. -/
theorem Runs.stands (runs : s.Runs p o flag result s') (stands : s.frame.StandsAt p point h)
    (pending : h.isReady s'.store = false) :
    (Frame.obstacle? o (flag (s.frame.steps + 1)) (s.frame.steps + 1) = none → result = .ok (.detached point h)) ∧
      (∀ failure, Frame.obstacle? o (flag (s.frame.steps + 1)) (s.frame.steps + 1) = some failure →
        result = .error failure) ∧
      s'.frame = s.frame.counted ∧ s'.log = s.log := by
  induction runs with
  | stop host step =>
    obtain ⟨result, step', free, obstructed⟩ := stands.step o ⟨host, _, _⟩ pending _
    cases step.symm.trans step'
    exact ⟨free, obstructed, rfl, rfl⟩
  | pass host step rest ih =>
    obtain ⟨_, step', _⟩ := stands.step o ⟨host, _, _⟩ (rest.pending pending) _
    cases step.symm.trans step'
  | complete completed _ ih => exact ih stands pending

/-- A run of a frame that is behind its last instruction changes nothing and asks for nothing. -/
theorem Runs.behind (runs : s.Runs p o flag result s') (behind : p.instrs[s.frame.pc]? = none) :
    result = s.frame.result ∧ s'.frame = s.frame ∧ s'.log = s.log := by
  induction runs with
  | stop _ step =>
    cases (Frame.step_done behind).symm.trans step
    exact ⟨rfl, rfl, rfl⟩
  | pass _ step => cases (Frame.step_done behind).symm.trans step
  | complete _ _ ih => exact ih behind

theorem Onward.marked (onward : Onward p o s s') (marked : s.frame.Marked p) : s'.frame.Marked p := by
  induction onward with
  | refl => exact marked
  | run _ runs ih => exact runs.marked ih
  | complete _ _ ih => exact ih

/-- A detached frame stays where it is until its handle is completed, whatever else happens, and the host is not
asked for anything. -/
theorem Onward.stands (onward : Onward p o s s') (stands : s.frame.StandsAt p point h)
    (pending : h.isReady s'.store = false) : s'.frame.StandsAt p point h ∧ s'.frame.pc = s.frame.pc ∧
      s'.frame.registers = s.frame.registers ∧ s'.log = s.log := by
  induction onward with
  | refl => exact ⟨stands, rfl, rfl, rfl⟩
  | run _ runs ih =>
    obtain ⟨stands', pc, registers, log⟩ := ih (runs.pending pending)
    obtain ⟨_, _, frame, log'⟩ := runs.stands stands' pending
    rw [frame, log']
    exact ⟨stands'.same rfl rfl rfl, pc, registers, log⟩
  | complete _ completed ih => exact ih (Handle.pending_complete completed pending)

theorem Onward.behind (onward : Onward p o s s') (behind : p.instrs[s.frame.pc]? = none) :
    s'.frame = s.frame ∧ s'.log = s.log := by
  induction onward with
  | refl => exact ⟨rfl, rfl⟩
  | run _ runs ih =>
    obtain ⟨_, frame, log⟩ := runs.behind (ih.1.symm ▸ behind)
    exact ⟨frame.trans ih.1, log.trans ih.2⟩
  | complete _ _ ih => exact ih

end Session

/-- A frame has one suspension at most. Whatever it has been through, it is marked as detached only where it stands
at a suspension point. The runs that follow are any runs, those in which nothing changes around the frame among
them. When a run is detached, it leaves that mark and names the pending handle that this point waits for; as long as
the handle stays pending later runs end in the same way, unless the limit or the flag stops them, and neither move
the frame nor ask the host for anything. Once a run is done there is no mark, and later runs give the same slot and
do nothing. -/
theorem Program.single_suspension (c : TypedCode) {o : Options} {store : Store} {s : Session}
    (onward : Session.Onward (assemble c) o { frame := .fresh (assemble c), store := store } s) :
    let p := assemble c
    (∀ point, s.frame.suspended = some point → ∃ dst src, p.instrs[s.frame.pc]? = some (.await dst src point)) ∧
    (∀ (_ : Host) flag, ∃ result t, s.Runs p o flag result t) ∧
    (∀ host cancelled, s.Runs p o (fun _ => cancelled) (s.finish p host o cancelled).result
      (s.after (s.finish p host o cancelled))) ∧
    ∀ flag result t, s.Runs p o flag result t →
      (∀ point h, result = .ok (.detached point h) →
        t.frame.suspended = some point ∧
        (∃ dst src, p.instrs[t.frame.pc]? = some (.await dst src point) ∧
          Registers.read t.frame.registers src = .ok (.handle h) ∧ h.isReady t.store = false) ∧
        ∀ s', Session.Onward p o t s' → ∀ flag' again u, s'.Runs p o flag' again u → h.isReady u.store = false →
          let obstacle := Frame.obstacle? o (flag' (s'.frame.steps + 1)) (s'.frame.steps + 1)
          (obstacle = none → again = .ok (.detached point h)) ∧
          (∀ failure, obstacle = some failure → again = .error failure) ∧
          u.frame.suspended = some point ∧ u.frame.pc = t.frame.pc ∧ u.frame.registers = t.frame.registers ∧
          u.log = t.log) ∧
      ∀ slot, result = .ok (.done slot) →
        t.frame.suspended = none ∧
        ∀ s', Session.Onward p o t s' → ∀ flag' again u, s'.Runs p o flag' again u →
          again = .ok (.done slot) ∧ u.frame = t.frame ∧ u.log = t.log := by
  intro p
  have forward : p.Forward := assemble_forward c
  have marked : s.frame.Marked p := onward.marked fun point mark => by cases mark
  refine ⟨fun point mark => ?_, fun host flag => s.exists_runs forward o host flag, s.runs_finish forward o,
    fun flag result t runs => ⟨?_, ?_⟩⟩
  · obtain ⟨h, _, dst, src, found, _⟩ := marked point mark
    exact ⟨dst, src, found⟩
  · intro point h detached
    obtain ⟨stands, pending⟩ := runs.detached detached
    obtain ⟨suspended, dst, src, found, read⟩ := stands
    refine ⟨suspended, ⟨dst, src, found, read, pending⟩, fun s' further flag' again u runs' pending' => ?_⟩
    have stands : t.frame.StandsAt p point h := ⟨suspended, dst, src, found, read⟩
    obtain ⟨stands', pc, registers, log⟩ := further.stands stands (runs'.pending pending')
    obtain ⟨free, obstructed, frame, log'⟩ := runs'.stands stands' pending'
    rw [frame, log']
    exact ⟨free, obstructed, stands'.suspended, pc, registers, log⟩
  · intro slot done
    obtain ⟨behind, ended⟩ := runs.done done
    refine ⟨?_, fun s' further flag' again u runs' => ?_⟩
    · cases mark : t.frame.suspended with
      | none => rfl
      | some point =>
        obtain ⟨h, _, dst, src, found, _⟩ := runs.marked marked point mark
        cases behind.symm.trans found
    · obtain ⟨frame, log⟩ := further.behind behind
      obtain ⟨same, frame', log'⟩ := runs'.behind (frame ▸ behind)
      exact ⟨same.trans (frame ▸ ended), frame'.trans frame, log'.trans log⟩

/-- A parameter that is pending, with a run that is cancelled in progress, when the parameter has been looked up. -/
theorem Program.single_suspension_cancelled :
    let p := assemble ⟨.resolve (.await (.param "x") 0), .data .any⟩
    let o : Options := ⟨none, true⟩
    let flag : Nat → Bool := fun tried => tried == 2
    let fresh : Session := { frame := .fresh p, store := .empty }
    let loaded : Frame := { pc := 1, registers := [none, none, some (.handle (.cell 0))], steps := 2 }
    let s : Session := { frame := loaded, store := .empty, log := [.param "x"], failures := 1 }
    let t : Session := { s with frame := { loaded with steps := 3, suspended := some 0 } }
    let u : Session := { s with frame := { loaded with steps := 4, suspended := some 0 } }
    fresh.Runs p o flag (.error .cancelled) s ∧ s.Runs p o flag (.ok (.detached 0 (.cell 0))) t ∧
      t.Runs p o flag (.ok (.detached 0 (.cell 0))) u ∧ t.frame.suspended = some 0 ∧
      (∃ dst src, p.instrs[t.frame.pc]? = some (.await dst src 0)) ∧ u.frame.pc = t.frame.pc ∧ u.log = t.log := by
  intro p o flag fresh loaded s t u
  let host : Host := .ofTables [("x", .cell 0)] [] []
  have cancelled : fresh.Runs p o flag (.error .cancelled) s :=
    .pass host rfl (@Session.Runs.stop p o flag _ ⟨.error .cancelled, s.frame, s.log⟩ host rfl)
  have detached : s.Runs p o flag (.ok (.detached 0 (.cell 0))) t :=
    @Session.Runs.stop p o flag s ⟨.ok (.detached 0 (.cell 0)), t.frame, t.log⟩ host rfl
  have again : t.Runs p o flag (.ok (.detached 0 (.cell 0))) u :=
    @Session.Runs.stop p o flag t ⟨.ok (.detached 0 (.cell 0)), u.frame, u.log⟩ host rfl
  obtain ⟨_, _, _, later⟩ := @single_suspension _ o .empty s (.run .refl cancelled)
  obtain ⟨suspended, ⟨dst, src, found, _⟩, standing⟩ := (later flag _ t detached).1 0 (.cell 0) rfl
  obtain ⟨_, _, _, pc, _, log⟩ := standing t .refl flag _ u again rfl
  exact ⟨cancelled, detached, again, suspended, ⟨dst, src, found⟩, pc, log⟩

end LazyExpr
