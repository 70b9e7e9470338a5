import LazyExpr.Proofs.Machine.Session

namespace LazyExpr

/-- Completing a handle takes no value away. -/
theorem Handle.value?_complete {store store' : Store} {h h' : Handle} {value v : Value}
    (completed : h.complete store value = .ok store') (found : h'.value? store = some v) :
    h'.value? store' = some v := by
  cases h with
  | null | boxed _ => cases completed
  | cell id =>
    simp only [complete] at completed
    cases pending : (store.cell id).value with
    | some v' =>
      rw [pending] at completed
      cases completed
    | none =>
      rw [pending] at completed
      cases completed
      cases h' with
      | null | boxed _ => exact found
      | cell id' =>
        simp only [value?, Store.set] at found ⊢
        split
        · rename_i same
          rw [same, pending] at found
          cases found
        · exact found

theorem Slot.ready_complete {store store' : Store} {h : Handle} {value : Value} {slot : Slot}
    (completed : h.complete store value = .ok store') (ready : slot.pending? store = none) :
    slot.pending? store' = none := by
  cases slot with
  | value v => rfl
  | handle h' =>
    obtain ⟨v, found⟩ := Slot.handle_ready_iff.mp ready
    exact Slot.handle_ready_iff.mpr ⟨v, Handle.value?_complete completed found⟩

namespace Session

variable {p : Program} {host : Host} {t : Regime} {allowed : Move → Prop} {s s' : Session} {move : Move}

/-- Every move keeps the frame sound. -/
theorem Turn.sound (forward : p.Forward) (bounded : RegistersBelow p.registers p.instrs) {known : Nat → Prop}
    (sound : Frame.Sound p t (fun slot => slot.pending? s.store = none) s.frame known)
    (turn : Turn p host t.trusted s move s') :
    ∃ known', Frame.Sound p t (fun slot => slot.pending? s'.store = none) s'.frame known' := by
  cases turn with
  | @run o cancelled keeps =>
    have ends : Frame.Ends p o ⟨host, s.store, cancelled⟩ s.frame s.log (s.finish p host o cancelled) :=
      Frame.run_ends forward s.frame s.log
    obtain ⟨g, log', steps, last⟩ := ends.last
    obtain ⟨pc, registers, _⟩ := Frame.step_stopped last
    obtain ⟨known', sound'⟩ := sound.steps bounded steps (keeps.mono List.prefix_rfl (Frame.step_stopped_log last))
    exact ⟨known', sound'.same pc registers⟩
  | complete completed => exact ⟨known, sound.mono fun slot ready => Slot.ready_complete completed ready⟩

/-- The frame of every session that can be reached is sound. -/
theorem Reached.sound (forward : p.Forward) (bounded : RegistersBelow p.registers p.instrs)
    (safe : p.Safe t 0 fun _ => False) (reached : Reached p host t.trusted allowed s) :
    ∃ known, Frame.Sound p t (fun slot => slot.pending? s.store = none) s.frame known := by
  induction reached with
  | fresh store =>
    refine ⟨_, ?_, safe, fun r knows => knows.elim⟩
    simp only [Frame.fresh, List.length_replicate]
  | turn _ _ turn ih =>
    obtain ⟨known, sound⟩ := ih
    exact turn.sound forward bounded sound

end Session

namespace Frame

variable {p : Program} {o : Options} {scene : Scene} {f : Frame} {log : Log} {finish : Finish} {t : Regime}
variable {known : Nat → Prop} {instr : Instr}

/-- An instruction other than one that waits finds slots that are ready in the registers that it looks at. -/
theorem Sound.reads_ready {store : Store} (sound : Sound p t (fun slot => slot.pending? store = none) f known)
    (found : p.instrs[f.pc]? = some instr) (other : instr.isAwait = false) :
    ∀ r ∈ instr.reads, ∃ slot, Registers.read f.registers r = .ok slot ∧ slot.pending? store = none :=
  fun r member => sound.holds r ((sound.next found).1 r member fun await => nomatch other.symm.trans await)

/-- An instruction that is not detained finds slots that are ready in all registers that it looks at. -/
theorem Sound.operands_ready (sound : Sound p t (fun slot => slot.pending? scene.store = none) f known)
    (found : p.instrs[f.pc]? = some instr) (ready : instr.waitsFor? scene.store f.registers = none) :
    ∀ r ∈ instr.reads, ∀ slot, Registers.read f.registers r = .ok slot → slot.pending? scene.store = none := by
  intro r member slot read
  cases await : instr.isAwait with
  | true => exact Instr.ready_of_await await member read ready
  | false =>
    obtain ⟨slot', read', ready'⟩ := sound.reads_ready found await r member
    cases read.symm.trans read'
    exact ready'

theorem obstacle_kind {cancelled : Bool} {steps : Nat} {failure : Failure}
    (obstacle : obstacle? o cancelled steps = some failure) :
    failure.kind = .resourceLimit ∨ failure.kind = .cancelled := by
  unfold obstacle? at obstacle
  split at obstacle
  · split at obstacle
    · cases obstacle
      exact .inl rfl
    · split at obstacle
      · cases obstacle
        exact .inr rfl
      · cases obstacle
  · split at obstacle
    · cases obstacle
      exact .inr rfl
    · cases obstacle

/-- A sound frame fails for want of a value only if the host does. -/
theorem Sound.step_notReady (sound : Sound p t (fun slot => slot.pending? scene.store = none) f known)
    (run : f.step p o scene log = .stopped finish) {failure : Failure} (failed : finish.result = .error failure)
    (kind : failure.kind = .notReady) :
    ∃ event, finish.log = log ++ [event] ∧ scene.host.answer log event = .error failure := by
  have outcomes := step_outcomes p o scene f log
  rw [run] at outcomes
  cases outcomes with
  | done =>
    have unread : Registers.read f.registers 0 = .error failure := Outcome.map_eq_error failed
    have foreign :=
      Registers.read_within (Q := fun failure => failure.kind ≠ .notReady) (fun _ => by decide) failure unread
    exact absurd kind foreign
  | obstructed _ obstacle =>
    cases failed
    rcases obstacle_kind obstacle with limit | flag
    · cases kind.symm.trans limit
    · cases kind.symm.trans flag
  | waits => cases failed
  | @fails instr failure' log' found _ ready executed =>
    cases failed
    cases Instr.execute_fails executed with
    | operation own =>
      rw [kind] at own
      cases own
    | unwritten => cases kind
    | unready member read pending => exact absurd (sound.operands_ready found ready _ member _ read) pending
    | host answered => exact ⟨_, rfl, answered⟩

end Frame

end LazyExpr
