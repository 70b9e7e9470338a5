import LazyExpr.Machine.Drive
import LazyExpr.Proofs.Lowering.Numbering
import LazyExpr.Proofs.Machine.Assembly
import LazyExpr.Proofs.Machine.Session

namespace LazyExpr

/-- One call of a driver: the index of the instruction at which the frame is detached, what the driver is told, what
happened and how the world is by then, and what the driver makes of it. -/
structure Handover (σ : Type) where
  index : Nat
  point : Nat
  awaiting : Handle
  log : Log
  before : World σ
  answer : Outcome Unit
  after : World σ

/-- A drive to its end, however many calls of the driver it takes. A driver that fails, or that leaves the handle
pending, ends it at once. -/
inductive Drives {σ : Type} (p : Program) (o : Options) (host : Host) (driver : Driver σ) :
    Frame → Log → World σ → List (Handover σ) → Arrival σ → Prop
  | arrives {f log world finish slot} : Frame.run p o ⟨host, world.store, world.cancelled⟩ f log = finish →
      finish.result = .ok (.done slot) → Drives p o host driver f log world [] ⟨.ok slot, world, finish.log⟩
  | fails {f log world finish failure} : Frame.run p o ⟨host, world.store, world.cancelled⟩ f log = finish →
      finish.result = .error failure → Drives p o host driver f log world [] ⟨.error failure, world, finish.log⟩
  | refused {f log world finish point h failure world'} :
      Frame.run p o ⟨host, world.store, world.cancelled⟩ f log = finish → finish.result = .ok (.detached point h) →
      driver point h world = (.error failure, world') →
      Drives p o host driver f log world [⟨finish.frame.pc, point, h, finish.log, world, .error failure, world'⟩]
        ⟨.error failure, world', finish.log⟩
  | unfilled {f log world finish point h world'} :
      Frame.run p o ⟨host, world.store, world.cancelled⟩ f log = finish → finish.result = .ok (.detached point h) →
      driver point h world = (.ok (), world') → h.isReady world'.store = false →
      Drives p o host driver f log world [⟨finish.frame.pc, point, h, finish.log, world, .ok (), world'⟩]
        ⟨.error (.stillPending point), world', finish.log⟩
  | resumes {f log world finish point h world' calls arrival} :
      Frame.run p o ⟨host, world.store, world.cancelled⟩ f log = finish → finish.result = .ok (.detached point h) →
      driver point h world = (.ok (), world') → h.isReady world'.store = true →
      Drives p o host driver finish.frame finish.log world' calls arrival →
      Drives p o host driver f log world (⟨finish.frame.pc, point, h, finish.log, world, .ok (), world'⟩ :: calls)
        arrival

/-- The suspension points that stand at an index or behind it. -/
def Program.pointsFrom (p : Program) (k : Nat) : List Nat := (p.instrs.drop k).filterMap Instr.point?

theorem Program.pointsFrom_await {p : Program} {k i dst src point : Nat} (behind : k ≤ i)
    (found : p.instrs[i]? = some (.await dst src point)) :
    (point :: p.pointsFrom (i + 1)).Sublist (p.pointsFrom k) := by
  obtain ⟨inside, same⟩ := List.getElem?_eq_some_iff.mp found
  have here : p.pointsFrom i = point :: p.pointsFrom (i + 1) := by
    rw [pointsFrom, List.drop_eq_getElem_cons inside, same]
    rfl
  rw [← here]
  exact (List.drop_sublist_drop_left p.instrs behind).filterMap _

namespace Frame

variable {p : Program} {o : Options} {scene : Scene} {f : Frame} {log : Log} {finish : Finish} {store : Store}

theorem Ends.pc_le (forward : p.Forward) (ends : Ends p o scene f log finish) : f.pc ≤ finish.frame.pc := by
  induction ends with
  | stop run => exact Nat.le_of_eq (step_stopped run).1.symm
  | head run _ ih => exact Nat.le_trans (Nat.le_of_lt (running_pc_lt forward run).2) ih

/-- With these cells no run of the frame is detached before the index. -/
def ClearTo (p : Program) (store : Store) (f : Frame) (k : Nat) : Prop :=
  ∀ o host cancelled log finish point h, Ends p o ⟨host, store, cancelled⟩ f log finish →
    finish.result = .ok (.detached point h) → k ≤ finish.frame.pc

theorem clearTo_zero (p : Program) (store : Store) (f : Frame) : f.ClearTo p store 0 :=
  fun _ _ _ _ _ _ _ _ _ => Nat.zero_le _

/-- Once its handle is ready, a frame is not detached again where it stands. -/
theorem clearTo_resumed (forward : p.Forward) {dst src point : Nat} {h : Handle}
    (found : p.instrs[f.pc]? = some (.await dst src point))
    (read : Registers.read f.registers src = .ok (.handle h))
    (ready : h.isReady store = true) : f.ClearTo p store (f.pc + 1) := by
  have passes : (Instr.await dst src point).waitsFor? store f.registers = none := by
    simp only [Instr.waitsFor?, read, Slot.pending?, ready]
    rfl
  intro o host cancelled log finish point' h' ends detached
  cases ends with
  | stop run =>
    have outcomes := step_outcomes p o ⟨host, store, cancelled⟩ f log
    rw [run] at outcomes
    cases outcomes with
    | done behind => cases found.symm.trans behind
    | obstructed | fails => cases detached
    | waits found' _ waits =>
      cases found.symm.trans found'
      cases passes.symm.trans waits
  | head run rest => exact Nat.le_trans (running_pc_lt forward run).2 (rest.pc_le forward)

end Frame

namespace Drives

variable {σ : Type} {p : Program} {o : Options} {host : Host} {driver : Driver σ} {f : Frame} {log : Log}
variable {world : World σ} {calls : List (Handover σ)} {arrival : Arrival σ} {k : Nat}

/-- Each call is made at a suspension point, which the driver is told, by a frame that is detached there. The next
one is made behind it. -/
theorem detached_at (forward : p.Forward) {finish : Finish} {point : Nat} {h : Handle}
    (run : f.run p o ⟨host, world.store, world.cancelled⟩ log = finish)
    (detached : finish.result = .ok (.detached point h)) (clear : f.ClearTo p world.store k) :
    k ≤ finish.frame.pc ∧ (∃ dst src, p.instrs[finish.frame.pc]? = some (.await dst src point)) ∧
      ∀ world' : World σ, h.isReady world'.store = true →
        finish.frame.ClearTo p world'.store (finish.frame.pc + 1) := by
  have ends : Frame.Ends p o ⟨host, world.store, world.cancelled⟩ f log finish := run ▸ Frame.run_ends forward f log
  obtain ⟨_, dst, src, found, read, _⟩ := ends.detached detached
  exact ⟨clear _ _ _ _ _ _ _ ends detached, ⟨dst, src, found⟩,
    fun world' ready => Frame.clearTo_resumed forward found read ready⟩

theorem found (forward : p.Forward) (drives : Drives p o host driver f log world calls arrival) :
    ∀ call ∈ calls, ∃ dst src, p.instrs[call.index]? = some (.await dst src call.point) := by
  induction drives with
  | arrives | fails => exact fun call member => absurd member List.not_mem_nil
  | refused run detached | unfilled run detached =>
    exact List.forall_mem_singleton.mpr (detached_at forward run detached (Frame.clearTo_zero p _ _)).2.1
  | resumes run detached _ _ _ ih =>
    exact List.forall_mem_cons.mpr ⟨(detached_at forward run detached (Frame.clearTo_zero p _ _)).2.1, ih⟩

theorem index_ge (forward : p.Forward) (drives : Drives p o host driver f log world calls arrival)
    (clear : f.ClearTo p world.store k) : ∀ call ∈ calls, k ≤ call.index := by
  induction drives generalizing k with
  | arrives | fails => exact fun call member => absurd member List.not_mem_nil
  | refused run detached | unfilled run detached =>
    exact List.forall_mem_singleton.mpr (detached_at forward run detached clear).1
  | resumes run detached _ ready _ ih =>
    obtain ⟨behind, _, resumed⟩ := detached_at forward run detached clear
    refine List.forall_mem_cons.mpr ⟨behind, fun call member => ?_⟩
    exact Nat.le_trans (Nat.le_succ_of_le behind) (ih (resumed _ ready) call member)

theorem increasing (forward : p.Forward) (drives : Drives p o host driver f log world calls arrival)
    (clear : f.ClearTo p world.store k) : calls.Pairwise fun a b => a.index < b.index := by
  induction drives generalizing k with
  | arrives | fails => exact .nil
  | refused | unfilled => exact List.pairwise_singleton _ _
  | resumes run detached _ ready rest ih =>
    obtain ⟨_, _, resumed⟩ := detached_at forward run detached clear
    exact .cons (rest.index_ge forward (resumed _ ready)) (ih (resumed _ ready))

/-- The calls pass suspension points of the program in their order, each of them once at most. -/
theorem points_sublist (forward : p.Forward) (drives : Drives p o host driver f log world calls arrival)
    (clear : f.ClearTo p world.store k) : (calls.map Handover.point).Sublist (p.pointsFrom k) := by
  induction drives generalizing k with
  | arrives | fails => exact List.nil_sublist _
  | refused run detached | unfilled run detached =>
    obtain ⟨behind, ⟨dst, src, found⟩, _⟩ := detached_at forward run detached clear
    exact (List.Sublist.cons_cons _ (List.nil_sublist _)).trans (Program.pointsFrom_await behind found)
  | resumes run detached _ ready _ ih =>
    obtain ⟨behind, ⟨dst, src, found⟩, resumed⟩ := detached_at forward run detached clear
    exact ((ih (resumed _ ready)).cons_cons _).trans (Program.pointsFrom_await behind found)

/-- What a call comes to: if the driver fails, so does the drive, and if the handle is pending afterwards the drive
reports that, in both cases with no further call. -/
theorem call_ends (drives : Drives p o host driver f log world calls arrival) {before after : List (Handover σ)}
    {call : Handover σ} (same : calls = before ++ call :: after) :
    driver call.point call.awaiting call.before = (call.answer, call.after) ∧
    (∀ failure, call.answer = .error failure → after = [] ∧ arrival = ⟨.error failure, call.after, call.log⟩) ∧
    (call.answer = .ok () → call.awaiting.isReady call.after.store = false →
      after = [] ∧ arrival = ⟨.error (.stillPending call.point), call.after, call.log⟩) := by
  have only : ∀ {x : Handover σ} {before : List (Handover σ)}, [x] = before ++ call :: after →
      x = call ∧ after = [] := by
    intro x before same
    rcases List.singleton_eq_append_iff.mp same with ⟨_, tail⟩ | ⟨_, tail⟩
    · exact ⟨(List.cons.inj tail).1.symm, (List.cons.inj tail).2⟩
    · cases tail
  induction drives generalizing before with
  | arrives | fails => cases (List.append_eq_nil_iff.mp same.symm).2
  | refused _ _ told =>
    obtain ⟨rfl, none⟩ := only same
    refine ⟨told, fun failure refusal => ?_, fun given => ?_⟩
    · cases refusal
      exact ⟨none, rfl⟩
    · cases given
  | unfilled _ _ told pending =>
    obtain ⟨rfl, none⟩ := only same
    refine ⟨told, fun failure refusal => ?_, fun _ _ => ⟨none, rfl⟩⟩
    cases refusal
  | resumes _ _ told ready _ ih =>
    cases before with
    | nil =>
      obtain ⟨rfl, _⟩ := List.cons.inj same
      refine ⟨told, fun failure refusal => ?_, fun _ pending => ?_⟩
      · cases refusal
      · cases ready.symm.trans pending
    | cons first rest => exact ih (List.cons.inj same).2

/-- A drive takes one call for each suspension point ahead at most, so that it ends by itself if its fuel allows for
them. -/
theorem of_driveFor (forward : p.Forward) {fuel : Nat} (enough : (p.pointsFrom k).length < fuel)
    (clear : f.ClearTo p world.store k) :
    ∃ calls, Drives p o host driver f log world calls (driveFor p o host driver fuel f log world) := by
  induction fuel generalizing f log world k with
  | zero => exact absurd enough (Nat.not_lt_zero _)
  | succ fuel ih =>
    generalize run : f.run p o ⟨host, world.store, world.cancelled⟩ log = finish
    cases result : finish.result with
    | error failure =>
      rw [driveFor]
      simp only [run, result]
      exact ⟨[], .fails run result⟩
    | ok halt =>
      cases halt with
      | done slot =>
        rw [driveFor]
        simp only [run, result]
        exact ⟨[], .arrives run result⟩
      | detached point h =>
        rcases told : driver point h world with ⟨failure | _, world'⟩
        · rw [driveFor]
          simp only [run, result, told]
          exact ⟨_, .refused run result told⟩
        · rw [driveFor]
          simp only [run, result, told]
          cases ready : h.isReady world'.store with
          | false => exact ⟨_, .unfilled run result told ready⟩
          | true =>
            obtain ⟨behind, ⟨dst, src, found⟩, resumed⟩ := detached_at forward run result clear
            -- The point that was passed is not ahead of the resumed frame, and that pays for this round.
            have fewer := (Program.pointsFrom_await behind found).length_le
            rw [List.length_cons] at fewer
            obtain ⟨calls, rest⟩ := ih (Nat.lt_of_lt_of_le fewer (Nat.le_of_lt_succ enough)) (resumed world' ready)
            exact ⟨_, .resumes run result told ready rest⟩

end Drives

/-- A drive gets on and ends. It calls the driver at suspension points of the program in the order of the
instructions, at none of them twice, and so not more often than there are such points. A call that fails ends it
with the failure of the driver, and one that leaves the handle pending with a report of that. -/
theorem Program.drive_onward {σ : Type} (c : TypedCode) (o : Options) (host : Host) (driver : Driver σ)
    (world : World σ) :
    let p := assemble c
    let arrival := drive p o host driver world
    ∃ calls : List (Handover σ), Drives p o host driver (.fresh p) [] world calls arrival ∧
      (∀ call ∈ calls, ∃ dst src, p.instrs[call.index]? = some (.await dst src call.point)) ∧
      calls.Pairwise (fun a b => a.index < b.index) ∧
      (calls.map Handover.point).Sublist p.resumePoints ∧ calls.length ≤ p.resumePoints.length ∧
      ∀ before call after, calls = before ++ call :: after →
        driver call.point call.awaiting call.before = (call.answer, call.after) ∧
        (∀ failure, call.answer = .error failure → after = [] ∧ arrival = ⟨.error failure, call.after, call.log⟩) ∧
        (call.answer = .ok () → call.awaiting.isReady call.after.store = false →
          after = [] ∧ arrival = ⟨.error (.stillPending call.point), call.after, call.log⟩) := by
  intro p arrival
  have forward : p.Forward := assemble_forward c
  have clear := Frame.clearTo_zero p world.store (.fresh p)
  have points : p.pointsFrom 0 = p.resumePoints := by
    rw [pointsFrom, List.drop_zero, resumePoints_eq]
  have enough : (p.pointsFrom 0).length < Frame.patience + p.resumePoints.length + 1 := by
    rw [points]
    exact Nat.lt_succ_of_le (Nat.le_add_left _ _)
  have ends : ∃ calls, Drives p o host driver (.fresh p) [] world calls arrival :=
    Drives.of_driveFor forward enough clear
  obtain ⟨calls, drives⟩ := ends
  have passed : (calls.map Handover.point).Sublist p.resumePoints := points ▸ drives.points_sublist forward clear
  refine ⟨calls, drives, drives.found forward, drives.increasing forward clear, passed, ?_, ?_⟩
  · rw [← List.length_map]
    exact passed.length_le
  · intro before call after same
    exact drives.call_ends same

end LazyExpr
