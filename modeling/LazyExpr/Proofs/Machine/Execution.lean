import LazyExpr.Proofs.Machine.Registers

namespace LazyExpr

/-- What the host answers to an event. -/
def Host.answer (host : Host) (log : Log) : Event → Outcome Slot
  | .param name => host.readParam log name
  | .binding name => host.readBinding log name
  | .call name args => (host.registry.call log name args).1.map .value

theorem Registry.call_log (r : Registry) (log : Log) (name : String) (args : List Value) :
    (r.call log name args).2 = log ∨ (r.call log name args).2 = log ++ [.call name args] := by
  unfold call
  split
  · exact .inl rfl
  · split
    · exact .inl rfl
    · exact .inr rfl

/-- A call that succeeds has reached its function. -/
theorem Registry.call_log_of_ok {r : Registry} {log : Log} {name : String} {args : List Value} {v : Value}
    (called : (r.call log name args).1 = .ok v) : (r.call log name args).2 = log ++ [.call name args] := by
  unfold call at called ⊢
  cases found : r.find? name with
  | none =>
    rw [found] at called
    cases called
  | some f =>
    rw [found] at called
    cases valid : f.signature.validate args with
    | error failure =>
      simp only [valid] at called
      cases called
    | ok => simp only [valid]

namespace Instr

variable {instr : Instr} {scene : Scene} {regs : Registers} {log log' : Log}

theorem execute_asks (scene : Scene) (regs : Registers) (log : Log) {event : Event}
    (asks : instr.asks? = some event) : ∃ dst, instr.writes? = some dst ∧
    instr.execute scene regs log = ((scene.host.answer log event).map (.write dst), log ++ [event]) := by
  cases instr with
  | loadParam dst name | loadBinding dst name =>
    cases asks
    exact ⟨dst, rfl, rfl⟩
  | _ => cases asks

/-- The log only grows, by one event at most. -/
theorem execute_log : (instr.execute scene regs log).2 = log ∨
    ∃ event, (instr.execute scene regs log).2 = log ++ [event] := by
  cases instr with
  | loadParam dst name => exact .inr ⟨_, rfl⟩
  | loadBinding dst name => exact .inr ⟨_, rfl⟩
  | call dst name args =>
    simp only [execute]
    cases regs.readAll scene.store args with
    | error failure => exact .inl rfl
    | ok values =>
      rcases scene.host.registry.call_log log name values with same | more
      · exact .inl same
      · exact .inr ⟨_, more⟩
  | _ => exact .inl rfl

/-- Where the slot comes from that an instruction writes, and where a run goes on behind it. -/
inductive Acts (instr : Instr) (scene : Scene) (regs : Registers) (log : Log) : Action → Prop
  | value {dst v} : instr.writes? = some dst → instr.asks? = none →
      Acts instr scene regs log (.write dst (.value v))
  | null {dst} : instr.writes? = some dst → instr.asks? = none →
      Acts instr scene regs log (.write dst (.handle .null))
  | wrap {dst src slot} : instr.writes? = some dst → instr.isAwait = false → instr.reads = [src] →
      regs.read src = .ok slot → Acts instr scene regs log (.write dst (.handle slot.toHandle))
  | copy {dst src slot} : instr.writes? = some dst → instr.isAwait → instr.reads = [src] →
      regs.read src = .ok slot → Acts instr scene regs log (.write dst slot)
  | answer {dst event slot} : instr.writes? = some dst → instr.asks? = some event →
      scene.host.answer log event = .ok slot → Acts instr scene regs log (.write dst slot)
  | goto {target} : instr.writes? = none → (∀ pc, target ∈ instr.successors pc) →
      Acts instr scene regs log (.goto target)
  | proceed : instr.writes? = none → (∀ pc, pc + 1 ∈ instr.successors pc) → Acts instr scene regs log .proceed

theorem acts_writeResult {dst : Nat} {result : Outcome Value} {action : Action} (writes : instr.writes? = some dst)
    (asks : instr.asks? = none) (run : writeResult dst result = .ok action) : instr.Acts scene regs log action := by
  cases result with
  | error failure => cases run
  | ok v =>
    cases run
    exact .value writes asks

theorem execute_acts {action : Action} (run : instr.execute scene regs log = (.ok action, log')) :
    instr.Acts scene regs log action := by
  have outcome := congrArg Prod.fst run
  cases instr with
  | loadNull dst =>
    cases outcome
    exact .null rfl rfl
  | loadConst dst value =>
    cases outcome
    exact .value rfl rfl
  | loadParam dst name =>
    have answered : (scene.host.answer log (.param name)).map (.write dst) = .ok action := outcome
    obtain ⟨slot, found, same⟩ := Outcome.map_eq_ok answered
    exact same ▸ .answer rfl rfl found
  | loadBinding dst name =>
    have answered : (scene.host.answer log (.binding name)).map (.write dst) = .ok action := outcome
    obtain ⟨slot, found, same⟩ := Outcome.map_eq_ok answered
    exact same ▸ .answer rfl rfl found
  | box dst src =>
    obtain ⟨slot, read, same⟩ := Outcome.map_eq_ok outcome
    exact same ▸ .wrap rfl rfl rfl read
  | await dst src point =>
    obtain ⟨slot, read, same⟩ := Outcome.map_eq_ok outcome
    exact same ▸ .copy rfl rfl rfl read
  | call dst name args =>
    simp only [execute] at outcome
    split at outcome
    · exact acts_writeResult rfl rfl outcome
    · cases outcome
  | jumpIfPresent src target =>
    obtain ⟨slot, _, outcome⟩ := Outcome.bind_eq_ok outcome
    obtain ⟨present, _, outcome⟩ := Outcome.bind_eq_ok outcome
    cases outcome
    cases present with
    | true => exact .goto rfl fun _ => List.mem_cons_of_mem _ (List.mem_singleton_self _)
    | false => exact .proceed rfl fun _ => List.mem_cons_self
  | jumpIfFalse condition target =>
    obtain ⟨value, _, outcome⟩ := Outcome.bind_eq_ok outcome
    cases outcome
    cases value.isTruthy with
    | true => exact .proceed rfl fun _ => List.mem_cons_self
    | false => exact .goto rfl fun _ => List.mem_cons_of_mem _ (List.mem_singleton_self _)
  | jump target =>
    cases outcome
    exact .goto rfl fun _ => List.mem_singleton_self _
  | _ => exact acts_writeResult rfl rfl outcome

end Instr

end LazyExpr
