import LazyExpr.Proofs.Machine.Paths
import LazyExpr.Proofs.Machine.Retelling
import Mathlib

namespace LazyExpr

/-- One run of a frame, with the host as it is by then. -/
structure Attempt where
  host : Host
  cancelled : Bool := false

/-- A frame that has been run some times. With it come all events so far, and the lookups and calls among them that
have succeeded. -/
structure Tried where
  frame : Frame
  log : Log := []
  told : Script := []

namespace Tried

def scene (store : Store) (a : Attempt) : Scene := ⟨a.host, store, a.cancelled⟩

/-- How the frame is run next. -/
def finish (p : Program) (o : Options) (store : Store) (t : Tried) (a : Attempt) : Finish :=
  t.frame.run p o (scene store a) t.log

def next (p : Program) (o : Options) (store : Store) (t : Tried) (a : Attempt) : Tried :=
  let finish := t.finish p o store a
  ⟨finish.frame, finish.log, t.told ++ a.host.answersFrom t.log (finish.log.drop t.log.length)⟩

/-- One frame, run as often as there are attempts. -/
def after (p : Program) (o : Options) (store : Store) (attempts : List Attempt) : Tried :=
  attempts.foldl (next p o store) { frame := .fresh p }

end Tried

namespace Attempt

variable {attempts : List Attempt} {event : Event} {slot : Slot}

/-- One of the attempts gives this slot for an event at some time. -/
def Gives (attempts : List Attempt) (event : Event) (slot : Slot) : Prop :=
  ∃ a ∈ attempts, ∃ log, a.host.answer log event = .ok slot

/-- A lookup or a call that succeeds always gives the same, in whichever attempt and whatever has failed before. -/
def Consistent (attempts : List Attempt) : Prop :=
  ∀ event slot slot', Gives attempts event slot → Gives attempts event slot' → slot = slot'

open Classical in
/-- The slot that the attempts give for an event, if any of them does. -/
noncomputable def given? (attempts : List Attempt) (event : Event) : Option Slot :=
  if found : ∃ slot, Gives attempts event slot then some found.choose else none

theorem given?_eq_some (consistent : Consistent attempts) (given : Gives attempts event slot) :
    given? attempts event = some slot := by
  have found : ∃ slot, Gives attempts event slot := ⟨slot, given⟩
  rw [given?, dif_pos found, consistent event _ slot found.choose_spec given]

end Attempt

namespace Host

variable {host : Host} {attempts : List Attempt}

/-- Whatever one of the attempts gives at some time, this host gives at once. -/
def Anticipates (host : Host) (attempts : List Attempt) : Prop :=
  ∀ event slot, Attempt.Gives attempts event slot → ∀ log, host.answer log event = .ok slot

/-- The function that takes any arguments and answers what the attempts give. -/
noncomputable def steadyFunction (attempts : List Attempt) (f : Function) : Function where
  signature := { name := f.signature.name }
  body _ args :=
    match Attempt.given? attempts (.call f.signature.name args) with
    | some (.value v) => .ok v
    | _ => .error (.undefinedFunction f.signature.name)

/-- The host that does not fail where any of the attempts succeeds. -/
noncomputable def steady (attempts : List Attempt) : Host where
  param _ name := .ok (match Attempt.given? attempts (.param name) with
    | some (.handle h) => some h
    | _ => none)
  binding _ name := .ok (Attempt.given? attempts (.binding name))
  registry := (attempts.flatMap fun a => a.host.registry).map (steadyFunction attempts)

theorem find?_steady {a : Attempt} (member : a ∈ attempts) {name : String} {f : Function}
    (found : a.host.registry.find? name = some f) : ∃ g : Function, g.signature.name = name ∧
    (steady attempts).registry.find? name = some (steadyFunction attempts g) := by
  have inside : f ∈ attempts.flatMap fun a => a.host.registry :=
    List.mem_flatMap.mpr ⟨a, member, List.mem_of_find?_eq_some found⟩
  have named : f.signature.name == name :=
    List.find?_some (p := fun g : Function => g.signature.name == name) found
  obtain ⟨g, first⟩ := Option.isSome_iff_exists.mp
    (List.find?_isSome (p := fun g : Function => g.signature.name == name).mpr ⟨f, inside, named⟩)
  have same : g.signature.name == name :=
    List.find?_some (p := fun g : Function => g.signature.name == name) first
  refine ⟨g, beq_iff_eq.mp same, ?_⟩
  simp only [Registry.find?, steady, List.find?_map, Option.map_eq_some_iff]
  exact ⟨g, first, rfl⟩

theorem anticipates_steady (consistent : Attempt.Consistent attempts) : (steady attempts).Anticipates attempts := by
  intro event slot given log
  have chosen := Attempt.given?_eq_some consistent given
  obtain ⟨a, member, before, answered⟩ := given
  cases event with
  | param name =>
    simp only [answer, readParam] at answered
    split at answered
    · cases answered
      simp only [answer, readParam, steady, chosen]
    · cases answered
    · cases answered
  | binding name => simp only [answer, readBinding, steady, chosen]
  | call name args =>
    obtain ⟨v, called, same⟩ := Outcome.map_eq_ok answered
    subst same
    simp only [Registry.call] at called
    split at called
    · cases called
    · rename_i f found
      obtain ⟨g, named, found'⟩ := find?_steady member found
      subst named
      simp only [answer, Registry.call, found', steadyFunction, chosen]
      rfl

theorem Anticipates.consistent (anticipates : host.Anticipates attempts) : Attempt.Consistent attempts :=
  fun event slot slot' first second =>
    Except.ok.inj ((anticipates event slot first []).symm.trans (anticipates event slot' second []))

theorem tells_of_answers {script : Script}
    (answers : ∀ entry ∈ script, ∀ log, host.answer log entry.1 = .ok entry.2)
    (before : Log) : host.Tells before script := by
  induction script generalizing before with
  | nil => trivial
  | cons entry rest ih =>
    obtain ⟨first, others⟩ := List.forall_mem_cons.mp answers
    exact ⟨first before, ih others _⟩

end Host

namespace Frame

variable {p : Program} {o : Options} {scene : Scene} {f : Frame} {log : Log} {finish : Finish}

/-- What has succeeded in a run is all that it takes to come as far without an interruption. -/
theorem Ends.retraced (ends : Ends p o scene f log finish) : ∃ g log', g.step p o scene log' = .stopped finish ∧
    Alike g finish.frame ∧
    ∀ (scene' : Scene) (h : Frame) (later : Log), scene.store.Extends scene'.store → Alike f h →
      scene'.host.Tells later (scene.host.answersFrom log (finish.log.drop log.length)) →
      ∃ h', Steps p {} scene' h later h'
        (later ++ (Script.events (scene.host.answersFrom log (finish.log.drop log.length)))) ∧ Alike g h' := by
  obtain ⟨g, log', ⟨told, script, again⟩, last, alike, ended⟩ := ends.retold
  obtain ⟨more, logged⟩ := ends.log_grows
  have same : scene.host.answersFrom log (finish.log.drop log.length) = told := by
    have parts := ended.trans script
    rw [← logged, Host.script_append] at parts
    rw [← logged, List.drop_left]
    exact List.append_cancel_left parts
  rw [same]
  exact ⟨g, log', last, alike, again⟩

/-- A run that fails has left its frame as it was when the failing instruction was tried, but for counting. -/
theorem step_failed {failure : Failure} (run : f.step p o scene log = .stopped finish)
    (failed : finish.result = .error failure) : finish.frame.pc = f.pc ∧ finish.frame.registers = f.registers ∧
    finish.frame.suspended = f.suspended := by
  have outcomes := step_outcomes p o scene f log
  rw [run] at outcomes
  cases outcomes with
  | done | obstructed | fails => exact ⟨rfl, rfl, rfl⟩
  | waits => cases failed

/-- Inside its program a frame does not fail for want of an instruction. -/
theorem Inside.failing {failure : Failure} (inside : Inside p f) (run : f.step p o scene log = .stopped finish)
    (failed : finish.result = .error failure) : ∃ instr, p.instrs[f.pc]? = some instr := by
  have outcomes := step_outcomes p o scene f log
  rw [run] at outcomes
  cases outcomes with
  | done behind =>
    obtain ⟨slot, read⟩ := inside.result (List.getElem?_eq_none_iff.mp behind)
    have unread : Registers.read f.registers 0 = .error failure := Outcome.map_eq_error failed
    cases read.symm.trans unread
  | obstructed found | fails found => exact ⟨_, found⟩
  | waits => cases failed

end Frame

namespace Tried

variable {p : Program} {o : Options} {store : Store} {t : Tried} {a : Attempt} {attempts : List Attempt}

/-- However often a frame has been run, it has come along a control path. -/
theorem after_along (closed : p.Closed) (forward : p.Forward) :
    ∃ passed, Frame.Along p (after p o store attempts).frame passed := by
  refine List.foldlRecOn (motive := fun t : Tried => ∃ passed, Frame.Along p t.frame passed) attempts _ ?_ ?_
  · exact ⟨[], .fresh p⟩
  · rintro t ⟨passed, along⟩ a _
    have ends : Frame.Ends p o (scene store a) t.frame t.log (t.finish p o store a) :=
      Frame.run_ends forward t.frame t.log
    exact along.ends closed ends

/-- All that has been told was the answer of some attempt. -/
theorem gives_of_told {entry : Event × Slot} (member : entry ∈ (after p o store attempts).told) :
    Attempt.Gives attempts entry.1 entry.2 := by
  refine List.foldlRecOn (motive := fun t : Tried => ∀ entry ∈ t.told, Attempt.Gives attempts entry.1 entry.2)
    attempts _ ?_ ?_ entry member
  · exact fun entry none => absurd none List.not_mem_nil
  · intro t before a inside entry member
    rcases List.mem_append.mp member with earlier | latest
    · exact before entry earlier
    · obtain ⟨log, answered⟩ := Host.answer_of_mem latest
      exact ⟨a, inside, log, answered⟩

/-- The next run, told at once what is told in it, starts where all earlier runs have led. -/
theorem after_retraced (forward : p.Forward) (scene : Scene) (more : store.Extends scene.store)
    (tells : scene.host.Tells [] (after p o store attempts).told) :
    ∃ g, Frame.Steps p {} scene (Frame.fresh p) [] g (after p o store attempts).told.events ∧
      Frame.Alike (after p o store attempts).frame g := by
  refine List.foldlRecOn (motive := fun t : Tried => scene.host.Tells [] t.told →
    ∃ g, Frame.Steps p {} scene (Frame.fresh p) [] g t.told.events ∧ Frame.Alike t.frame g) attempts _ ?_ ?_ tells
  · exact fun _ => ⟨_, .refl _ _, rfl, rfl⟩
  · intro t before a _ tells
    obtain ⟨tellsBefore, tellsNow⟩ := Host.tells_append.mp tells
    obtain ⟨g, steps, alike⟩ := before tellsBefore
    have ends : Frame.Ends p o (Tried.scene store a) t.frame t.log (t.finish p o store a) :=
      Frame.run_ends forward t.frame t.log
    obtain ⟨f, log', _, arrived, again⟩ := ends.retraced
    rw [List.nil_append] at tellsNow
    obtain ⟨g', steps', alike'⟩ := again scene g _ more alike tellsNow
    rw [← Script.events_append] at steps'
    exact ⟨g', steps.trans steps', arrived.pc ▸ alike'.pc, arrived.registers ▸ alike'.registers⟩

end Tried

namespace Program

/-- A failed run can be tried again, without loss or repetition. Whatever lookups and calls have failed in earlier
runs of the frame, and whichever runs were cancelled, a run that fails leaves the frame as it was before the failing
instruction. A run that is done gives the slot of one uninterrupted run, and all that has succeeded in all runs is
what happens in that one, in the same order. -/
theorem retry_uninterrupted (c : TypedCode) (o : Options) (store : Store) (attempts : List Attempt) (last : Attempt)
    (consistent : Attempt.Consistent (attempts ++ [last])) :
    let p := assemble c
    let before := Tried.after p o store attempts
    let finish := before.finish p o store last
    (∀ failure, finish.result = .error failure → ∃ g log instr,
      Frame.Steps p o (Tried.scene store last) before.frame before.log g log ∧ p.instrs[g.pc]? = some instr ∧
      g.step p o (Tried.scene store last) log = .stopped finish ∧ finish.frame.pc = g.pc ∧
      finish.frame.registers = g.registers ∧ finish.frame.suspended = g.suspended) ∧
    ∀ slot, finish.result = .ok (.done slot) →
      (∃ host : Host, host.Anticipates (attempts ++ [last])) ∧
      ∀ host : Host, host.Anticipates (attempts ++ [last]) →
        (p.replay host store).result = .ok (.done slot) ∧
        (p.replay host store).log = (Tried.after p o store (attempts ++ [last])).told.events ∧
        host.script (p.replay host store).log = (Tried.after p o store (attempts ++ [last])).told := by
  intro p before finish
  have forward : p.Forward := assemble_forward c
  have closed : p.Closed := closed_assemble c
  have ends : Frame.Ends p o (Tried.scene store last) before.frame before.log finish :=
    Frame.run_ends forward before.frame before.log
  refine ⟨fun failure failed => ?_, fun slot done =>
    ⟨⟨_, Host.anticipates_steady consistent⟩, fun host anticipates => ?_⟩⟩
  · have come : ∃ passed, Frame.Along p before.frame passed := Tried.after_along closed forward
    obtain ⟨passed, along⟩ := come
    obtain ⟨g, log, steps, stopped⟩ := ends.last
    obtain ⟨passed', further⟩ := along.steps closed steps
    obtain ⟨instr, found⟩ := (further.inside closed).failing stopped failed
    exact ⟨g, log, instr, steps, found, stopped, Frame.step_failed stopped failed⟩
  · have tells : host.Tells [] (Tried.after p o store (attempts ++ [last])).told :=
      Host.tells_of_answers (fun entry member => anticipates _ _ (Tried.gives_of_told member)) []
    obtain ⟨g, steps, alike⟩ := Tried.after_retraced forward ⟨host, store, false⟩ (.refl store) tells
    have whole : (Tried.after p o store (attempts ++ [last])).frame = finish.frame :=
      congrArg Tried.frame (List.foldl_concat ..)
    rw [whole] at alike
    obtain ⟨behind, result⟩ := ends.done done
    have same : g.result = .ok (.done slot) := by rw [← result, Frame.result, Frame.result, alike.registers]
    have stopped : g.step p {} ⟨host, store, false⟩ (Tried.after p o store (attempts ++ [last])).told.events =
        .stopped ⟨g.result, g, _⟩ :=
      Frame.step_done (alike.pc ▸ behind)
    rw [replay, Frame.run_eq_of_ends forward (steps.ends (.stop stopped))]
    exact ⟨same, rfl, tells.answersFrom⟩

/-- A lookup that fails twice, with a run cancelled in between. What has been looked up before it is not looked up
again. -/
theorem retry_uninterrupted_flaky :
    let p := assemble ⟨.binary .plus (.resolve (.param "x")) (.resolve (.param "y")), .data .any⟩
    let calm : Host := .ofTables [("x", .boxed (.int 1)), ("y", .boxed (.int 2))] [] []
    let flaky : Host := { calm with
      param := fun log name => if name = "y" ∧ log.length < 3 then .error (.undefinedVariable "param" name)
        else calm.param log name }
    let before := Tried.after p ⟨none, true⟩ .empty [⟨flaky, false⟩, ⟨flaky, true⟩, ⟨flaky, false⟩]
    (before.finish p ⟨none, true⟩ .empty ⟨flaky, false⟩).log = [.param "x", .param "y", .param "y", .param "y"] ∧
      (before.finish p ⟨none, true⟩ .empty ⟨flaky, false⟩).result = .ok (.done (.value (.int 3))) ∧
      (p.replay calm .empty).result = .ok (.done (.value (.int 3))) ∧
      (p.replay calm .empty).log = [.param "x", .param "y"] := by
  intro p calm flaky before
  let attempts : List Attempt := [⟨flaky, false⟩, ⟨flaky, true⟩, ⟨flaky, false⟩]
  have same : ∀ a ∈ attempts ++ [⟨flaky, false⟩], a.host = flaky := by
    simp only [attempts, List.cons_append, List.nil_append, List.forall_mem_cons, true_and]
    exact fun a none => absurd none List.not_mem_nil
  have anticipates : calm.Anticipates (attempts ++ [⟨flaky, false⟩]) := by
    rintro event slot ⟨a, member, log, answered⟩ later
    rw [same a member] at answered
    cases event with
    | param name =>
      by_cases failing : name = "y" ∧ log.length < 3
      · simp only [Host.answer, Host.readParam, flaky, if_pos failing] at answered
        cases answered
      · simp only [Host.answer, Host.readParam, flaky, if_neg failing] at answered
        exact answered
    | binding name | call name args => exact answered
  have done : (before.finish p ⟨none, true⟩ .empty ⟨flaky, false⟩).result = .ok (.done (.value (.int 3))) := by cbv
  have logged : (before.finish p ⟨none, true⟩ .empty ⟨flaky, false⟩).log =
    [.param "x", .param "y", .param "y", .param "y"] := by cbv
  have told : (Tried.after p ⟨none, true⟩ .empty (attempts ++ [⟨flaky, false⟩])).told.events =
    [.param "x", .param "y"] := by cbv
  obtain ⟨result, events, _⟩ := ((retry_uninterrupted _ ⟨none, true⟩ .empty attempts ⟨flaky, false⟩
    anticipates.consistent).2 _ done).2 calm anticipates
  exact ⟨logged, done, result, events.trans told⟩

end Program

end LazyExpr
