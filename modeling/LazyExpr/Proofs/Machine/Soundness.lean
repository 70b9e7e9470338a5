import LazyExpr.Proofs.Machine.Knowledge
import LazyExpr.Proofs.Machine.Failing

namespace LazyExpr

theorem Instr.successors_of_writes {instr : Instr} {dst : Nat} (writes : instr.writes? = some dst) (pc : Nat) :
    instr.successors pc = [pc + 1] := by
  cases instr <;> first | rfl | cases writes

/-- A slot that is awaited and need not be waited for is ready. -/
theorem Instr.ready_of_await {instr : Instr} {store : Store} {regs : Registers} {r : Nat} {slot : Slot}
    (await : instr.isAwait) (reads : r ∈ instr.reads) (read : regs.read r = .ok slot)
    (ready : instr.waitsFor? store regs = none) : slot.pending? store = none := by
  cases instr with
  | await dst src point =>
    cases List.mem_singleton.mp reads
    simp only [waitsFor?, read, Option.map_eq_none_iff] at ready
    exact ready
  | _ => cases await

namespace Frame

/-- The frame has all registers, is safe from its next instruction on, and what is known of registers there is
true of them. -/
structure Sound (p : Program) (t : Regime) (P : Slot → Prop) (f : Frame) (known : Nat → Prop) : Prop where
  size : f.registers.length = p.registers
  safe : p.Safe t f.pc known
  holds : ∀ r, known r → ∃ slot, Registers.read f.registers r = .ok slot ∧ P slot

variable {p : Program} {t : Regime} {P : Slot → Prop} {f g : Frame} {known : Nat → Prop} {scene : Scene}
variable {log log' : Log} {instr : Instr} {o : Options}

theorem Sound.mono {P' : Slot → Prop} (sound : Sound p t P f known) (weaker : ∀ slot, P slot → P' slot) :
    Sound p t P' f known := by
  refine ⟨sound.size, sound.safe, fun r knows => ?_⟩
  obtain ⟨slot, read, holds⟩ := sound.holds r knows
  exact ⟨slot, read, weaker slot holds⟩

theorem Sound.next (sound : Sound p t P f known) (found : p.instrs[f.pc]? = some instr) :
    (∀ r ∈ instr.reads, (instr.isAwait → t.awaits) → known r) ∧
      ∀ next ∈ instr.successors f.pc, p.Safe t next (instr.learns t known) := by
  cases sound.safe with
  | behind past _ =>
    rw [found] at past
    cases past
  | instr found' reads next =>
    cases Option.some.inj (found.symm.trans found')
    exact ⟨reads, next⟩

/-- What is written is known, unless it is the answer to a lookup that is not trusted. -/
theorem Sound.write (bounded : RegistersBelow p.registers p.instrs) (sound : Sound p t P f known)
    (found : p.instrs[f.pc]? = some instr) {dst : Nat} {slot : Slot} (writes : instr.writes? = some dst)
    (holds : (∀ event, instr.asks? = some event → t.trusted event) → P slot)
    (pc : g.pc = (f.apply (.write dst slot)).pc) (registers : g.registers = (f.apply (.write dst slot)).registers) :
    Sound p t P g (instr.learns t known) := by
  have written : g.registers = f.registers.set dst (some slot) := registers
  have room : dst < f.registers.length := by
    rw [sound.size]
    refine bounded instr (List.mem_of_getElem? found) dst ?_
    simp only [Instr.registers, writes, Option.toList_some, List.cons_append, List.mem_cons, true_or]
  refine ⟨?_, ?_, fun r knows => ?_⟩
  · rw [written, List.length_set, sound.size]
  · rw [pc]
    refine (sound.next found).2 _ ?_
    rw [Instr.successors_of_writes writes]
    exact List.mem_singleton_self _
  · unfold Instr.learns at knows
    split at knows
    · rename_i same
      cases Option.some.inj (writes.symm.trans same)
      refine ⟨slot, ?_, holds knows⟩
      simp only [Registers.read, written, List.getElem?_set_self room]
    · rename_i other
      obtain ⟨slot', read, holds'⟩ := sound.holds r knows
      refine ⟨slot', ?_, holds'⟩
      have elsewhere : dst ≠ r := fun same => other (same ▸ writes)
      simpa only [Registers.read, written, List.getElem?_set_ne elsewhere] using read

theorem Sound.jump (sound : Sound p t P f known) (found : p.instrs[f.pc]? = some instr)
    (writes : instr.writes? = none) (leads : g.pc ∈ instr.successors f.pc) (registers : g.registers = f.registers) :
    Sound p t P g (instr.learns t known) := by
  refine ⟨registers ▸ sound.size, (sound.next found).2 _ leads, fun r knows => ?_⟩
  rw [Instr.learns, writes] at knows
  rw [registers]
  exact sound.holds r knows

/-- Each step of a run keeps the frame sound, if slots that are ready are as they should be and so are the
answers to trusted lookups. -/
theorem Sound.step (bounded : RegistersBelow p.registers p.instrs)
    (passes : ∀ slot, slot.pending? scene.store = none → P slot) (sound : Sound p t P f known)
    (run : f.step p o scene log = .running g log')
    (answers : ∀ event slot, log' = log ++ [event] → t.trusted event → scene.host.answer log event = .ok slot →
      P slot) : ∃ known', Sound p t P g known' := by
  have outcomes := step_outcomes p o scene f log
  rw [run] at outcomes
  cases outcomes with
  | @passes instr action _ found _ ready executed =>
    refine ⟨instr.learns t known, ?_⟩
    have pc := f.passed_pc instr action
    have registers := f.passed_registers instr action
    cases Instr.execute_acts executed with
    | value writes _ => exact sound.write bounded found writes (fun _ => passes _ rfl) pc registers
    | null writes _ => exact sound.write bounded found writes (fun _ => passes _ rfl) pc registers
    | @wrap dst src slot writes other reads read =>
      refine sound.write bounded found writes (fun _ => ?_) pc registers
      cases slot with
      | value v => exact passes _ rfl
      | handle h =>
        have knows := (sound.next found).1 src (reads ▸ List.mem_singleton_self src)
          fun await => (nomatch other.symm.trans await)
        obtain ⟨slot', read', holds⟩ := sound.holds src knows
        cases read.symm.trans read'
        exact holds
    | @copy dst src slot writes await reads read =>
      refine sound.write bounded found writes (fun _ => passes _ ?_) pc registers
      exact Instr.ready_of_await await (reads ▸ List.mem_singleton_self src) read ready
    | @answer dst event slot writes asks answered =>
      refine sound.write bounded found writes (fun trusted => ?_) pc registers
      obtain ⟨_, _, same⟩ := Instr.execute_asks scene f.registers log asks
      rw [executed] at same
      exact answers event slot (congrArg Prod.snd same) (trusted event asks) answered
    | goto writes leads => exact sound.jump found writes (pc ▸ leads f.pc) registers
    | proceed writes falls => exact sound.jump found writes (pc ▸ falls f.pc) registers

end Frame

end LazyExpr
