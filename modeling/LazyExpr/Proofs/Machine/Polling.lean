import Mathlib
import LazyExpr.Proofs.Machine.Limiting
import LazyExpr.Proofs.Machine.Paths
import LazyExpr.Proofs.Machine.Retelling

namespace LazyExpr

namespace Finish

/-- One for a run that is detached. -/
def waits (finish : Finish) : Nat :=
  match finish.result with
  | .ok (.detached _ _) => 1
  | _ => 0

/-- One for a run that fails. -/
def failures (finish : Finish) : Nat :=
  match finish.result with
  | .error _ => 1
  | _ => 0

end Finish

theorem Session.after_failures (s : Session) (finish : Finish) :
    (s.after finish).failures = s.failures + finish.failures := by
  simp only [after, Finish.failures]
  cases finish.result <;> rfl

namespace Frame

variable {p : Program} {o : Options} {scene : Scene} {f f' f'' g : Frame} {log log' : Log} {finish : Finish}
variable {count count' : Nat} {store : Store} {told told' : Script} {passed : List Instr}

theorem Passes.trans {h : Frame} {log'' : Log} (first : Passes p o scene count f log g log')
    (rest : Passes p o scene count' g log' h log'') : Passes p o scene (count + count') f log h log'' := by
  induction first with
  | zero =>
    rw [Nat.zero_add]
    exact rest
  | succ run _ ih =>
    rw [Nat.succ_add]
    exact .succ run (ih rest)

theorem Passes.executes (first : Passes p o scene count f log g log')
    (rest : Executes p o scene count' g log' finish) : Executes p o scene (count + count') f log finish := by
  induction first with
  | zero =>
    rw [Nat.zero_add]
    exact rest
  | succ run _ ih =>
    rw [Nat.succ_add]
    exact .next run (ih rest)

/-- A frame like the first one is taken to one like the second by this many instructions, wherever the handles of
the store are ready and the host tells the same at once. -/
def Paced (p : Program) (store : Store) (told : Script) (count : Nat) (f f' : Frame) : Prop :=
  ∀ (scene : Scene) (g : Frame) (log : Log), store.Extends scene.store → Alike f g → scene.host.Tells log told →
    ∃ g', Passes p {} scene count g log g' (log ++ told.events) ∧ Alike f' g'

theorem Paced.still (p : Program) (store : Store) (alike : Alike f f') : Paced p store [] 0 f f' := by
  intro scene g log _ alike' _
  have unlogged : log ++ Script.events [] = log := List.append_nil log
  rw [unlogged]
  exact ⟨g, .zero, alike'.pc.trans alike.pc.symm, alike'.registers.trans alike.registers.symm⟩

theorem Paced.trans (first : Paced p store told count f f') (second : Paced p store told' count' f' f'') :
    Paced p store (told ++ told') (count + count') f f'' := by
  intro scene g log more alike tells
  obtain ⟨tellsFirst, tellsSecond⟩ := Host.tells_append.mp tells
  obtain ⟨g', passes, alike'⟩ := first scene g log more alike tellsFirst
  obtain ⟨g'', passes', alike''⟩ := second scene g' _ more alike' tellsSecond
  rw [List.append_assoc, ← Script.events_append] at passes'
  exact ⟨g'', passes.trans passes', alike''⟩

theorem Paced.extends {store' : Store} (paced : Paced p store told count f f') (more : store.Extends store') :
    Paced p store' told count f f' :=
  fun scene g log more' => paced scene g log (more.trans more')

/-- A frame that is paced from its start to its end is done in one run where nothing is pending. That run needs a
limit which allows for the instructions on its way, and no more. -/
theorem Paced.ready (forward : p.Forward) (paced : Paced p store told count (.fresh p) f)
    (behind : p.instrs[f.pc]? = none) {slot : Slot} (done : f.result = .ok (.done slot)) {scene : Scene}
    (more : store.Extends scene.store) (tells : scene.host.Tells [] told) :
    let ready := (Frame.fresh p).run p {} scene []
    ready.result = .ok (.done slot) ∧ ready.frame.steps = count ∧ ready.log = told.events ∧
      ∀ limit, let cut := (Frame.fresh p).run p (Options.limitedTo {} limit) scene []
        (count ≤ limit → cut = ready) ∧ (limit < count → cut.result = .error (.tooManyInstructions limit)) := by
  intro ready
  obtain ⟨g, passes, alike⟩ := paced scene (.fresh p) [] more ⟨rfl, rfl⟩ tells
  have same : g.result = .ok (.done slot) := by rw [← done, result, result, alike.registers]
  have past : p.instrs[g.pc]? = none := alike.pc ▸ behind
  have executes := passes.executes (.behind past)
  rw [Nat.add_zero, same] at executes
  have run : ready = _ := run_eq_of_ends forward executes.ends
  rw [run]
  refine ⟨rfl, executes.steps.trans (Nat.zero_add _), rfl, fun limit => ⟨fun enough => ?_, fun short => ?_⟩⟩
  · rw [← Nat.zero_add count] at enough
    exact run_eq_of_ends forward (executes.within (o := {}) enough)
  · obtain ⟨_, _, _, _, _, stopped⟩ := executes.beyond (o := {}) short (Nat.zero_add limit)
    rw [run_eq_of_ends forward stopped]

/-- What comes of the instructions that a run executes. All are passed on the way but the one that fails or has to
wait, if there is such a one, and those that are passed are passed again, one for one, where nothing is pending. -/
theorem Executes.covers (closed : p.Closed) (executes : Executes p o scene count f log finish)
    (along : Along p f passed) : ∃ (more : List Instr) (told : Script),
      Along p finish.frame (more ++ passed) ∧ count = more.length + finish.waits + finish.failures ∧
      scene.host.script finish.log = scene.host.script log ++ told ∧ scene.host.Tells log told ∧
      (finish.failures = 0 → finish.log = log ++ told.events) ∧
      Paced p scene.store told more.length f finish.frame := by
  induction executes generalizing passed with
  | @behind f log past =>
    obtain ⟨slot, read⟩ := (along.inside closed).result (List.getElem?_eq_none_iff.mp past)
    have done : f.result = .ok (.done slot) := by
      rw [result, read]
      rfl
    refine ⟨[], [], along, ?_, (List.append_nil _).symm, trivial, fun _ => (List.append_nil log).symm,
      .still p _ ⟨rfl, rfl⟩⟩
    simp only [Finish.waits, Finish.failures, done]
    rfl
  | @last f log instr finish found run =>
    obtain ⟨pc, registers, _⟩ := step_stopped run
    have script := step_stopped_script run
    refine ⟨[], [], along.same pc registers, ?_, script.trans (List.append_nil _).symm, trivial, ?_,
      .still p _ ⟨pc, registers⟩⟩
    all_goals
      have outcomes := step_outcomes p o scene f log
      rw [run] at outcomes
    · cases outcomes with
      | done past => cases found.symm.trans past
      | obstructed | waits | fails => rfl
    · intro unfailed
      cases outcomes with
      | done past => cases found.symm.trans past
      | waits => exact (List.append_nil log).symm
      | obstructed | fails => cases unfailed
  | @next count f g log log' finish run rest ih =>
    obtain ⟨instr, further⟩ := along.step closed run
    obtain ⟨told, logged, tells, again⟩ := step_paced run
    obtain ⟨more, told', along', counted, script, tells', unfailed, paced⟩ := ih further
    have first : Paced p scene.store told 1 f g := by
      intro scene' h later extended alike telling
      obtain ⟨g', step, alike'⟩ := again scene' h later extended alike telling
      exact ⟨g', .succ step .zero, alike'⟩
    rw [logged] at tells'
    refine ⟨more ++ [instr], told ++ told', ?_, ?_, ?_, Host.tells_append.mpr ⟨tells, tells'⟩, fun done => ?_, ?_⟩
    · rw [List.append_assoc]
      exact along'
    · rw [List.length_append, List.length_singleton]
      omega
    · rw [script, logged, Host.script_append, tells.answersFrom, List.append_assoc]
    · rw [unfailed done, logged, List.append_assoc, Script.events_append]
    · rw [List.length_append, List.length_singleton, Nat.add_comm]
      exact first.trans paced

end Frame

/-- What happens to a frame from outside: it is run, or a handle is filled. Filling one again changes nothing. -/
inductive Beat
  | run (cancelled : Bool)
  | fill (h : Handle) (value : Value)

/-- A session with the number of its runs that have been detached. -/
structure Polled where
  session : Session
  waits : Nat := 0

namespace Polled

def next (p : Program) (host : Host) (o : Options) (t : Polled) : Beat → Polled
  | .run cancelled =>
    let finish := t.session.finish p host o cancelled
    ⟨t.session.after finish, t.waits + finish.waits⟩
  | .fill h value =>
    match h.complete t.session.store value with
    | .ok store => { t with session := { t.session with store := store } }
    | .error _ => t

/-- A fresh frame after a schedule. -/
def after (p : Program) (host : Host) (o : Options) (store : Store) (beats : List Beat) : Polled :=
  beats.foldl (next p host o) { session := { frame := .fresh p, store := store } }

/-- The frame has been charged for each instruction on its way, and once more for each run that has been detached or
has failed. A frame that is told at once what this one has been told goes the same way, and is charged for the way
only. -/
structure Accounted (p : Program) (host : Host) (t : Polled) (passed : List Instr) : Prop where
  along : Frame.Along p t.session.frame passed
  steps : t.session.frame.steps = passed.length + t.waits + t.session.failures
  paced : Frame.Paced p t.session.store (host.script t.session.log) passed.length (.fresh p) t.session.frame
  told : t.session.failures = 0 →
    (host.script t.session.log).events = t.session.log ∧ host.Tells [] (host.script t.session.log)

variable {p : Program} {host : Host} {o : Options} {t : Polled} {passed : List Instr}

theorem Accounted.run (closed : p.Closed) (forward : p.Forward) (accounted : Accounted p host t passed)
    (o : Options)
    (cancelled : Bool) : ∃ more, Accounted p host (t.next p host o (.run cancelled)) (more ++ passed) := by
  have ends : Frame.Ends p o ⟨host, t.session.store, cancelled⟩ t.session.frame t.session.log
    (t.session.finish p host o cancelled) := Frame.run_ends forward t.session.frame t.session.log
  obtain ⟨count, executes⟩ := Frame.Executes.ofEnds ends
  obtain ⟨more, told, along, counted, script, tells, unfailed, paced⟩ := executes.covers closed accounted.along
  have total := executes.steps
  have before := accounted.steps
  have after := t.session.after_failures (t.session.finish p host o cancelled)
  refine ⟨more, along, ?_, ?_, fun done => ?_⟩
  · simp only [next, after, List.length_append]
    simp only [Session.after]
    omega
  · simp only [next, Session.after]
    rw [script, List.length_append, Nat.add_comm]
    exact accounted.paced.trans paced
  · simp only [next, after] at done ⊢
    simp only [Session.after]
    obtain ⟨earlier, now⟩ := Nat.add_eq_zero_iff.mp done
    obtain ⟨events, telling⟩ := accounted.told earlier
    rw [script, Script.events_append, events, unfailed now]
    exact ⟨rfl, Host.tells_append.mpr ⟨telling, by rw [events]; exact tells⟩⟩

theorem Accounted.fill (accounted : Accounted p host t passed) (o : Options) (h : Handle) (value : Value) :
    Accounted p host (t.next p host o (.fill h value)) passed := by
  simp only [next]
  split
  · rename_i store completed
    exact ⟨accounted.along, accounted.steps, accounted.paced.extends (Store.extends_complete completed),
      accounted.told⟩
  · exact accounted

/-- However it is scheduled, a frame is accounted for. -/
theorem after_accounted (closed : p.Closed) (forward : p.Forward) (host : Host) (o : Options) (store : Store)
    (beats : List Beat) : ∃ passed, Accounted p host (after p host o store beats) passed := by
  refine List.foldlRecOn (motive := fun t : Polled => ∃ passed, Accounted p host t passed) beats _ ?_ ?_
  · exact ⟨[], .fresh p, rfl, .still p _ ⟨rfl, rfl⟩, fun _ => ⟨rfl, trivial⟩⟩
  · rintro t ⟨passed, accounted⟩ beat _
    cases beat with
    | run cancelled =>
      obtain ⟨more, further⟩ := accounted.run closed forward o cancelled
      exact ⟨_, further⟩
    | fill h value => exact ⟨passed, accounted.fill o h value⟩

/-- The same schedule without a limit and with one: both have come to the same, or the limit is used up. -/
inductive Limited (p : Program) (limit : Nat) : Polled → Polled → Prop
  | same {t : Polled} : t.session.frame.steps ≤ limit → Limited p limit t t
  | spent {t cut : Polled} : limit < t.session.frame.steps → cut.session.frame.Spent p limit → Limited p limit t cut

variable {limit : Nat} {cut : Polled}

/-- A run under a limit is the run without it as long as the count stays within the limit, and fails from there
on. -/
theorem Limited.finish (forward : p.Forward) (limited : Limited p limit t cut) (host : Host) (o : Options)
    (cancelled : Bool) :
    let whole := t.session.finish p host o.unlimited cancelled
    let short := cut.session.finish p host (o.limitedTo limit) cancelled
    (whole.frame.steps ≤ limit → cut = t ∧ short = whole) ∧
    (limit < whole.frame.steps →
      short.frame.Spent p limit ∧ short.result = .error (.tooManyInstructions limit)) := by
  intro whole short
  have ends : Frame.Ends p o.unlimited ⟨host, t.session.store, cancelled⟩ t.session.frame t.session.log whole :=
    Frame.run_ends forward t.session.frame t.session.log
  obtain ⟨count, executes⟩ := Frame.Executes.ofEnds ends
  have total := executes.steps
  cases limited with
  | same within =>
    refine ⟨fun enough => ⟨rfl, ?_⟩, fun beyond => ?_⟩
    · exact Frame.run_eq_of_ends forward (executes.within (by omega))
    · have allowed : t.session.frame.steps + (limit - t.session.frame.steps) = limit := by omega
      obtain ⟨g, log, _, _, spent, stopped⟩ := executes.beyond (by omega) allowed
      have same : short = _ := Frame.run_eq_of_ends forward stopped
      rw [same]
      exact ⟨spent.counted, rfl⟩
  | spent used spent =>
    refine ⟨fun enough => absurd enough (by omega), fun _ => ?_⟩
    have same : short = _ := Session.finish_spent forward spent o host cancelled
    rw [same]
    exact ⟨spent.counted, rfl⟩

theorem Limited.next (forward : p.Forward) (limited : Limited p limit t cut) (host : Host) (o : Options)
    (beat : Beat) :
    Limited p limit (t.next p host o.unlimited beat) (cut.next p host (o.limitedTo limit) beat) := by
  cases beat with
  | run cancelled =>
    obtain ⟨within, beyond⟩ := limited.finish forward host o cancelled
    by_cases enough : (t.session.finish p host o.unlimited cancelled).frame.steps ≤ limit
    · obtain ⟨same, finish⟩ := within enough
      subst same
      simp only [Polled.next, finish]
      exact .same enough
    · exact .spent (Nat.lt_of_not_le enough) (beyond (Nat.lt_of_not_le enough)).1
  | fill h value =>
    simp only [Polled.next]
    cases limited with
    | same within =>
      split
      · exact .same within
      · exact .same within
    | spent used spent => split <;> split <;> exact .spent used spent

theorem after_limited (forward : p.Forward) (host : Host) (o : Options) (store : Store) (beats : List Beat) :
    Limited p limit (after p host o.unlimited store beats) (after p host (o.limitedTo limit) store beats) := by
  have fold : ∀ t cut, Limited p limit t cut → Limited p limit (beats.foldl (Polled.next p host o.unlimited) t)
      (beats.foldl (Polled.next p host (o.limitedTo limit)) cut) := by
    induction beats with
    | nil => exact fun _ _ limited => limited
    | cons beat rest ih => exact fun t cut limited => ih _ _ (limited.next forward host o beat)
  exact fold _ _ (.same (Nat.zero_le limit))

end Polled

/-- A limit of instructions is spent on waiting too. When a schedule is done, the frame has been charged for each
instruction on its way, and once more for each earlier run that was detached or has failed. With all handles ready
from the start, and told at once what it has been told, a frame goes the same way and is charged for that only. So
it needs a limit that allows for the way; the same schedule needs one that allows for the runs that were detached as
well, and fails under any lower one. -/
theorem Program.waits_charged (c : TypedCode) (host : Host) (o : Options) (store : Store) (beats : List Beat)
    (cancelled : Bool) (slot : Slot)
    (done : ((Polled.after (assemble c) host o.unlimited store beats).session.finish (assemble c) host o.unlimited
      cancelled).result = .ok (.done slot)) :
    let p := assemble c
    let before := Polled.after p host o.unlimited store beats
    let finish := before.session.finish p host o.unlimited cancelled
    ∃ passed, Frame.Along p finish.frame passed ∧
      finish.frame.steps = passed.length + before.waits + before.session.failures ∧
      (∀ limit, let cut := (Polled.after p host (o.limitedTo limit) store beats).session
        (finish.frame.steps ≤ limit → cut.finish p host (o.limitedTo limit) cancelled = finish) ∧
        (limit < finish.frame.steps →
          (cut.finish p host (o.limitedTo limit) cancelled).result = .error (.tooManyInstructions limit))) ∧
      (∀ (told : Host) (eventual : Nat → Value), told.Tells [] (host.script finish.log) →
        let scene : Scene := ⟨told, before.session.store.completed eventual, false⟩
        let ready := (Frame.fresh p).run p {} scene []
        ready.result = .ok (.done slot) ∧ ready.frame.steps = passed.length ∧
          ready.log = (host.script finish.log).events ∧
          ∀ limit, let cut := (Frame.fresh p).run p (Options.limitedTo {} limit) scene []
            (passed.length ≤ limit → cut = ready) ∧
            (limit < passed.length → cut.result = .error (.tooManyInstructions limit))) ∧
      (before.session.failures = 0 →
        host.Tells [] (host.script finish.log) ∧ (host.script finish.log).events = finish.log) := by
  intro p before finish
  have forward : p.Forward := assemble_forward c
  have closed : p.Closed := closed_assemble c
  obtain ⟨passed, accounted⟩ := Polled.after_accounted closed forward host o.unlimited store beats
  obtain ⟨more, whole⟩ := accounted.run closed forward o.unlimited cancelled
  have quiet : finish.waits = 0 ∧ finish.failures = 0 := by
    have ended : finish.result = .ok (.done slot) := done
    simp only [Finish.waits, Finish.failures, ended, and_self]
  have failures := before.session.after_failures finish
  rw [quiet.2, Nat.add_zero] at failures
  have ends :
      Frame.Ends p o.unlimited ⟨host, before.session.store, cancelled⟩ before.session.frame before.session.log
        finish :=
    Frame.run_ends forward before.session.frame before.session.log
  obtain ⟨behind, result⟩ := ends.done done
  refine ⟨more ++ passed, whole.along, ?_, fun limit => ?_, fun told eventual tells => ?_, fun unfailed => ?_⟩
  · have steps := whole.steps
    simp only [Polled.next] at steps
    have charged : finish.frame.steps = _ := steps
    rw [charged, failures, quiet.1, Nat.add_zero]
  · obtain ⟨within, beyond⟩ := (Polled.after_limited forward host o store beats).finish forward host o cancelled
    exact ⟨fun enough => (within enough).2, fun short => (beyond short).2⟩
  · exact whole.paced.ready forward behind result (Store.extends_completed eventual _) tells
  · have unfailed' : (before.session.after finish).failures = 0 := failures.trans unfailed
    exact (whole.told unfailed').symm

/-- A fallback whose parameter is pending once: three instructions on its way, and one more for the wait. -/
theorem Program.waits_charged_fallback :
    let p := assemble ⟨.firstPresent (.await (.param "x") 0) (.box (.const (.int 5))), .deferred⟩
    let host := Host.ofTables [("x", .cell 0)] [] []
    let before := Polled.after p host {} .empty [.run false, .fill (.cell 0) (.int 1)]
    let finish := before.session.finish p host {} false
    finish.result = .ok (.done (.handle (.cell 0))) ∧ before.waits = 1 ∧ before.session.failures = 0 ∧
      ∃ passed, Frame.Along p finish.frame passed ∧ passed.length = 3 ∧ finish.frame.steps = 4 ∧
        (host.script finish.log).events = finish.log := by
  intro p host before finish
  have done : finish.result = .ok (.done (.handle (.cell 0))) := by cbv
  have waits : before.waits = 1 := by cbv
  have failures : before.session.failures = 0 := by cbv
  have steps : finish.frame.steps = 4 := by cbv
  obtain ⟨passed, along, charged, _, _, told⟩ :=
    waits_charged _ host {} .empty [.run false, .fill (.cell 0) (.int 1)]
    false (.handle (.cell 0)) done
  have total : 4 = passed.length + 1 + 0 := by
    rw [← steps, ← waits, ← failures]
    exact charged
  exact ⟨done, waits, failures, passed, along, by omega, steps, (told failures).2⟩

/-- A limit of three instructions is enough where the parameter is ready from the start, and not where it is pending
once, although the way through the program is the same. -/
theorem Program.limit_spent_on_waiting :
    let p := assemble ⟨.firstPresent (.await (.param "x") 0) (.box (.const (.int 5))), .deferred⟩
    let host := Host.ofTables [("x", .cell 0)] [] []
    let filled : Store := .set .empty 0 ⟨some (.int 1), []⟩
    let limited : Options := .limitedTo {} 3
    let ready := (Frame.fresh p).run p limited ⟨host, filled, false⟩ []
    let beats : List Beat := [.run false, .fill (.cell 0) (.int 1)]
    let waited := (Polled.after p host {} .empty beats).session.finish p host {} false
    let cut := (Polled.after p host limited .empty beats).session.finish p host limited false
    ready.result = .ok (.done (.handle (.cell 0))) ∧ ready.frame.steps = 3 ∧
      waited.result = .ok (.done (.handle (.cell 0))) ∧ waited.frame.steps = 4 ∧
      cut.result = .error (.tooManyInstructions 3) ∧ cut.frame.steps = 4 := by
  intro p host filled limited ready beats waited cut
  refine ⟨?_, ?_, ?_, ?_, ?_, ?_⟩ <;> cbv

end LazyExpr
