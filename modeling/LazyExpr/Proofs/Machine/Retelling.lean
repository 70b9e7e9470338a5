import LazyExpr.Proofs.Machine.Assembly
import LazyExpr.Proofs.Machine.Replay
import LazyExpr.Proofs.Machine.Script

namespace LazyExpr

/-- Whatever the one gives the other gives too. -/
def Outcome.Below {α : Type} (x y : Outcome α) : Prop := ∀ a, x = .ok a → y = .ok a

namespace Outcome

variable {α β : Type}

theorem Below.refl (x : Outcome α) : Below x x := fun _ found => found

theorem Below.bind {x y : Outcome α} {k l : α → Outcome β} (first : Below x y) (rest : ∀ a, Below (k a) (l a)) :
    Below (x >>= k) (y >>= l) := by
  intro b found
  obtain ⟨a, given, later⟩ := bind_eq_ok found
  rw [first a given]
  exact rest a b later

theorem Below.map {x y : Outcome α} (f : α → β) (below : Below x y) : Below (x.map f) (y.map f) := by
  intro b found
  obtain ⟨a, given, same⟩ := map_eq_ok found
  rw [below a given, ← same]
  rfl

end Outcome

open Outcome

theorem Slot.plain_below {store store' : Store} (more : store.Extends store') (slot : Slot) :
    Below (slot.plain store) (slot.plain store') := by
  intro v found
  have ready : slot.pending? store = none := Holds.ready found
  rw [more slot ready]
  exact found

namespace Registers

variable {store store' : Store}

theorem readPlain_below (more : store.Extends store') (regs : Registers) (r : Nat) :
    Below (regs.readPlain store r) (regs.readPlain store' r) :=
  (Below.refl _).bind fun slot => slot.plain_below more

theorem readAll_below (more : store.Extends store') (regs : Registers) (rs : List Nat) :
    Below (regs.readAll store rs) (regs.readAll store' rs) := by
  induction rs with
  | nil => exact .refl _
  | cons r rest ih => exact (readPlain_below more regs r).bind fun _ => ih.bind fun _ => .refl _

end Registers

namespace Instr

variable {instr : Instr} {scene : Scene} {regs : Registers} {log log' : Log} {action : Action}

/-- Where more handles are ready an instruction does not start to wait. -/
theorem waitsFor?_extends {store store' : Store} (more : store.Extends store')
    (ready : instr.waitsFor? store regs = none) : instr.waitsFor? store' regs = none := by
  cases waits : instr.waitsFor? store' regs with
  | none => rfl
  | some wait =>
    obtain ⟨point, h⟩ := wait
    obtain ⟨dst, src, same, read, unready⟩ := waitsFor?_eq_some waits
    subst same
    have atSource := ready_of_await rfl (List.mem_singleton_self src) read ready
    obtain ⟨v, holds⟩ := Slot.holds_of_ready atSource
    have kept : (Slot.handle h).Holds store' v := (more _ atSource).trans holds
    obtain ⟨v', found⟩ := Slot.handle_ready_iff.mp kept.ready
    simp only [Handle.isReady, found, Option.isSome_some] at unready
    cases unready

/-- What an instruction has been told that was passed like this. It is passed in the same way wherever the same
handles are ready and the host tells the same at once. -/
def Retold (instr : Instr) (scene : Scene) (regs : Registers) (log : Log) (action : Action) (log' : Log) : Prop :=
  ∃ told : Script, log' = log ++ told.events ∧ scene.host.Tells log told ∧
    ∀ (scene' : Scene) (later : Log), scene.store.Extends scene'.store → scene'.host.Tells later told →
      instr.execute scene' regs later = (.ok action, later ++ told.events)

/-- An instruction that asks nothing. -/
theorem retold_quiet (run : instr.execute scene regs log = (.ok action, log')) (unlogged : log' = log)
    (again : ∀ (scene' : Scene) (later : Log), scene.store.Extends scene'.store →
      Below (instr.execute scene regs log).1 (instr.execute scene' regs later).1 ∧
        (instr.execute scene' regs later).2 = later) :
    instr.Retold scene regs log action log' := by
  refine ⟨[], unlogged.trans (List.append_nil log).symm, trivial, fun scene' later more _ => ?_⟩
  obtain ⟨below, logged⟩ := again scene' later more
  have passed := below action (congrArg Prod.fst run)
  exact Prod.ext passed (logged.trans (List.append_nil later).symm)

/-- An instruction that looks a variable up. -/
theorem retold_asks (run : instr.execute scene regs log = (.ok action, log')) {event : Event}
    (asks : instr.asks? = some event) : instr.Retold scene regs log action log' := by
  obtain ⟨dst, writes, same⟩ := execute_asks scene regs log asks
  rw [run] at same
  obtain ⟨slot, answered, wrote⟩ := map_eq_ok (congrArg Prod.fst same).symm
  refine ⟨[(event, slot)], congrArg Prod.snd same, ⟨answered, trivial⟩, fun scene' later _ tells => ?_⟩
  obtain ⟨dst', writes', again⟩ := execute_asks scene' regs later asks
  cases Option.some.inj (writes.symm.trans writes')
  rw [again, tells.1, ← wrote]
  rfl

theorem retold_call {dst : Nat} {name : String} {args : List Nat}
    (run : (Instr.call dst name args).execute scene regs log = (.ok action, log')) :
    (Instr.call dst name args).Retold scene regs log action log' := by
  simp only [execute] at run
  cases all : regs.readAll scene.store args with
  | error failure =>
    rw [all] at run
    cases run
  | ok values =>
    rw [all] at run
    obtain ⟨v, called, wrote⟩ := map_eq_ok (congrArg Prod.fst run)
    have logged : (scene.host.registry.call log name values).2 = log' := congrArg Prod.snd run
    have answered : scene.host.answer log (.call name values) = .ok (.value v) := by
      simp only [Host.answer, called]
      rfl
    have reached := Registry.call_log_of_ok called
    refine ⟨[(.call name values, .value v)], logged.symm.trans reached, ⟨answered, trivial⟩,
      fun scene' later more tells => ?_⟩
    obtain ⟨v', called', same⟩ := map_eq_ok tells.1
    cases same
    have reached' := Registry.call_log_of_ok called'
    simp only [execute, Registers.readAll_below more regs args values all, called', reached']
    subst wrote
    rfl

theorem execute_retold (run : instr.execute scene regs log = (.ok action, log')) :
    instr.Retold scene regs log action log' := by
  have unlogged : log' = (instr.execute scene regs log).2 := (congrArg Prod.snd run).symm
  cases instr with
  | loadNull | loadConst | jump | box | await =>
    exact retold_quiet run unlogged fun scene' later _ => ⟨.refl _, rfl⟩
  | loadParam | loadBinding => exact retold_asks run rfl
  | resolve dst src =>
    refine retold_quiet run unlogged fun scene' later more => ⟨?_, rfl⟩
    exact (Registers.readPlain_below more regs src).map _
  | truthy dst src =>
    refine retold_quiet run unlogged fun scene' later more => ⟨?_, rfl⟩
    exact ((Registers.readPlain_below more regs src).map _).map _
  | unary dst op src =>
    refine retold_quiet run unlogged fun scene' later more => ⟨Below.map _ ?_, rfl⟩
    exact (Registers.readPlain_below more regs src).bind fun _ => .refl _
  | field dst base name safe =>
    refine retold_quiet run unlogged fun scene' later more => ⟨Below.map _ ?_, rfl⟩
    exact (Registers.readPlain_below more regs base).bind fun _ => .refl _
  | binary dst op left right =>
    refine retold_quiet run unlogged fun scene' later more => ⟨Below.map _ ?_, rfl⟩
    refine (Registers.readPlain_below more regs left).bind fun _ => ?_
    exact (Registers.readPlain_below more regs right).bind fun _ => .refl _
  | index dst base key safe =>
    refine retold_quiet run unlogged fun scene' later more => ⟨Below.map _ ?_, rfl⟩
    refine (Registers.readPlain_below more regs base).bind fun _ => ?_
    exact (Registers.readPlain_below more regs key).bind fun _ => .refl _
  | list dst items =>
    refine retold_quiet run unlogged fun scene' later more => ⟨?_, rfl⟩
    exact ((Registers.readAll_below more regs items).map _).map _
  | call => exact retold_call run
  | jumpIfPresent src target =>
    refine retold_quiet run unlogged fun scene' later more => ⟨(Below.refl _).bind fun slot => ?_, rfl⟩
    simp only [Slot.isPresent_eq_map]
    exact ((slot.plain_below more).map _).bind fun _ => .refl _
  | jumpIfFalse condition target =>
    refine retold_quiet run unlogged fun scene' later more => ⟨?_, rfl⟩
    exact (Registers.readPlain_below more regs condition).bind fun _ => .refl _

end Instr

namespace Frame

variable {p : Program} {o : Options} {scene : Scene} {f f' : Frame} {log log' : Log} {finish : Finish}

/-- What the run from one frame to another has been told. A frame that has come equally far is taken equally far by
whoever is told the same at once. -/
def Retold (p : Program) (scene : Scene) (f : Frame) (log : Log) (f' : Frame) (log' : Log) : Prop :=
  ∃ told : Script, scene.host.script log' = scene.host.script log ++ told ∧
    ∀ (scene' : Scene) (g : Frame) (later : Log), scene.store.Extends scene'.store → Alike f g →
      scene'.host.Tells later told →
      ∃ g', Steps p {} scene' g later g' (later ++ told.events) ∧ Alike f' g'

theorem Retold.refl (p : Program) (scene : Scene) (f : Frame) (log : Log) : Retold p scene f log f log := by
  refine ⟨[], (List.append_nil _).symm, fun scene' g later _ alike _ => ⟨g, ?_, alike⟩⟩
  have unlogged : later ++ Script.events [] = later := List.append_nil later
  rw [unlogged]
  exact .refl g later

theorem Retold.trans {f'' : Frame} {log'' : Log} (first : Retold p scene f log f' log')
    (second : Retold p scene f' log' f'' log'') : Retold p scene f log f'' log'' := by
  obtain ⟨told, script, again⟩ := first
  obtain ⟨told', script', again'⟩ := second
  refine ⟨told ++ told', by rw [script', script, List.append_assoc], fun scene' g later more alike tells => ?_⟩
  obtain ⟨tellsFirst, tellsSecond⟩ := Host.tells_append.mp tells
  obtain ⟨g', steps, alike'⟩ := again scene' g later more alike tellsFirst
  obtain ⟨g'', steps', alike''⟩ := again' scene' g' (later ++ told.events) more alike' tellsSecond
  rw [List.append_assoc, ← Script.events_append] at steps'
  exact ⟨g'', steps.trans steps', alike''⟩

/-- A step is taken again, one for one, by a frame that has come equally far and is told the same at once. -/
theorem step_paced (run : f.step p o scene log = .running f' log') :
    ∃ told : Script, log' = log ++ told.events ∧ scene.host.Tells log told ∧
      ∀ (scene' : Scene) (g : Frame) (later : Log), scene.store.Extends scene'.store → Alike f g →
        scene'.host.Tells later told →
        ∃ g', g.step p {} scene' later = .running g' (later ++ told.events) ∧ Alike f' g' := by
  have outcomes := step_outcomes p o scene f log
  rw [run] at outcomes
  cases outcomes with
  | @passes instr action _ found _ ready executed =>
    obtain ⟨told, logged, tells, again⟩ := Instr.execute_retold executed
    refine ⟨told, logged, tells, fun scene' g later more alike tells' => ?_⟩
    have found' : p.instrs[g.pc]? = some instr := alike.pc ▸ found
    have ready' : instr.waitsFor? scene'.store g.registers = none := by
      rw [alike.registers]
      exact Instr.waitsFor?_extends more ready
    have executed' := again scene' later more tells'
    rw [← alike.registers] at executed'
    have step := step_executes (o := {}) later found' rfl ready'
    rw [executed'] at step
    exact ⟨_, step, alike.passed instr action⟩

theorem step_retold (run : f.step p o scene log = .running f' log') : Retold p scene f log f' log' := by
  obtain ⟨told, logged, tells, again⟩ := step_paced run
  refine ⟨told, ?_, fun scene' g later more alike tells' => ?_⟩
  · rw [logged, Host.script_append, tells.answersFrom]
  · obtain ⟨g', step, alike'⟩ := again scene' g later more alike tells'
    exact ⟨g', .head step (.refl _ _), alike'⟩

theorem Steps.retold (steps : Steps p o scene f log f' log') : Retold p scene f log f' log' := by
  induction steps with
  | refl f log => exact .refl p scene f log
  | head run _ ih => exact (step_retold run).trans ih

/-- Nothing succeeds any more when a run stops. -/
theorem step_stopped_script (run : f.step p o scene log = .stopped finish) :
    scene.host.script finish.log = scene.host.script log := by
  have outcomes := step_outcomes p o scene f log
  rw [run] at outcomes
  cases outcomes with
  | done | obstructed | waits => rfl
  | fails _ _ _ executed =>
    cases Instr.execute_fails executed with
    | operation | unwritten | unready => rfl
    | host failed => exact Host.script_failed failed

/-- A run leads to the frame of its last step, and that is all it has been told. -/
theorem Ends.retold (ends : Ends p o scene f log finish) : ∃ g log', Retold p scene f log g log' ∧
    g.step p o scene log' = .stopped finish ∧ Alike g finish.frame ∧
    scene.host.script finish.log = scene.host.script log' := by
  obtain ⟨g, log', steps, last⟩ := ends.last
  obtain ⟨pc, registers, _⟩ := step_stopped last
  exact ⟨g, log', steps.retold, last, ⟨pc, registers⟩, step_stopped_script last⟩

end Frame

namespace Session

variable {p : Program} {host : Host} {trusted : Event → Prop} {allowed : Move → Prop} {s : Session}

/-- However a session has gone, with runs that failed and handles that were pending, one run gets just as far that
is told at once all that has been answered in the end. -/
theorem Reached.retold (forward : p.Forward) (reached : Reached p host trusted allowed s) (scene : Scene)
    (more : s.store.Extends scene.store) (tells : scene.host.Tells [] (host.script s.log)) :
    ∃ g, Frame.Steps p {} scene (Frame.fresh p) [] g (host.script s.log).events ∧ Frame.Alike s.frame g := by
  induction reached with
  | fresh store => exact ⟨_, .refl _ _, rfl, rfl⟩
  | @turn s s' move _ _ turn ih =>
    cases turn with
    | @run o cancelled _ =>
      have ends : Frame.Ends p o ⟨host, s.store, cancelled⟩ s.frame s.log (s.finish p host o cancelled) :=
        Frame.run_ends forward s.frame s.log
      obtain ⟨f, log, ⟨told, script, again⟩, _, alike, ended⟩ := ends.retold
      have parts : host.script (s.finish p host o cancelled).log = host.script s.log ++ told := ended.trans script
      simp only [after] at tells ⊢
      rw [parts] at tells ⊢
      obtain ⟨before, within⟩ := Host.tells_append.mp tells
      rw [List.nil_append] at within
      obtain ⟨g, steps, alike'⟩ := ih more before
      obtain ⟨g', steps', alike''⟩ := again scene g _ more alike' within
      rw [← Script.events_append] at steps'
      exact ⟨g', steps.trans steps', alike''.pc.trans alike.pc.symm, alike''.registers.trans alike.registers.symm⟩
    | complete completed => exact ih ((Store.extends_complete completed).trans more) tells

/-- The slot in which a session ends is the one that the code gives when all that has been answered is told at
once. -/
theorem Reached.evaluate {c : TypedCode} (reached : Reached (.assemble c) host trusted allowed s) {o : Options}
    {cancelled : Bool} {slot : Slot} (done : (s.finish (.assemble c) host o cancelled).result = .ok (.done slot))
    (scene : Scene) (more : s.store.Extends scene.store)
    (tells : scene.host.Tells [] (host.script (s.finish (.assemble c) host o cancelled).log)) :
    c.code.evaluate scene [] = (.ok slot, (host.script (s.finish (.assemble c) host o cancelled).log).events) := by
  have forward := Program.assemble_forward c
  have ends : Frame.Ends (.assemble c) o ⟨host, s.store, cancelled⟩ s.frame s.log
    (s.finish (.assemble c) host o cancelled) := Frame.run_ends forward s.frame s.log
  obtain ⟨f, log, ⟨told, script, again⟩, last, _, ended⟩ := ends.retold
  generalize s.finish (.assemble c) host o cancelled = finish at done tells last ended ⊢
  rw [ended.trans script] at tells ⊢
  obtain ⟨before, within⟩ := Host.tells_append.mp tells
  rw [List.nil_append] at within
  obtain ⟨g, steps, alike⟩ := reached.retold forward scene more before
  obtain ⟨g', steps', alike'⟩ := again scene g _ more alike within
  rw [← Script.events_append] at steps'
  have outcomes := Frame.step_outcomes (.assemble c) o ⟨host, s.store, cancelled⟩ f log
  rw [last] at outcomes
  cases outcomes with
  | done behind =>
    have same : g'.result = .ok (.done slot) := by
      rw [← done, Frame.result, Frame.result, alike'.registers]
    have step : g'.step (.assemble c) {} scene (Script.events (host.script s.log ++ told)) =
      .stopped ⟨g'.result, g', _⟩ := Frame.step_done (alike'.pc ▸ behind)
    rw [same] at step
    have run := Frame.run_eq_of_ends forward ((steps.trans steps').ends (.stop step))
    obtain ⟨result, logged⟩ := Program.run_assemble c scene []
    rw [run] at result logged
    generalize c.code.evaluate scene [] = outcome at result logged
    rcases outcome with ⟨(failure | ⟨point, awaiting⟩) | slot', log'⟩
    · cases result
    · cases result
    · cases result
      cases logged
      rfl
  | obstructed | waits | fails => cases done

theorem Reached.evaluate_retelling {c : TypedCode} (reached : Reached (.assemble c) host trusted allowed s)
    {o : Options} {cancelled : Bool} {slot : Slot}
    (done : (s.finish (.assemble c) host o cancelled).result = .ok (.done slot)) {store : Store}
    (more : s.store.Extends store) :
    let told := host.script (s.finish (.assemble c) host o cancelled).log
    c.code.evaluate ⟨host.retelling told, store, false⟩ [] = (.ok slot, told.events) :=
  reached.evaluate done _ more (Host.tells_retelling fun _ _ member => Host.answer_of_mem member)

end Session

end LazyExpr
