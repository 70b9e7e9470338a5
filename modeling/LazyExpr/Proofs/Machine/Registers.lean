import LazyExpr.Proofs.Machine.Layout

namespace LazyExpr

namespace Instr

/-- The registers that an instruction looks at. -/
def reads : Instr → List Nat
  | loadNull _ | loadConst _ _ | loadParam _ _ | loadBinding _ _ | jump _ => []
  | box _ src | await _ src _ | resolve _ src | truthy _ src | unary _ _ src => [src]
  | field _ base _ _ => [base]
  | binary _ _ left right => [left, right]
  | index _ base key _ => [base, key]
  | list _ items => items
  | call _ _ args => args
  | jumpIfPresent src _ => [src]
  | jumpIfFalse condition _ => [condition]

def writes? : Instr → Option Nat
  | loadNull dst | loadConst dst _ | loadParam dst _ | loadBinding dst _ | box dst _ | await dst _ _
  | resolve dst _ | truthy dst _ | binary dst _ _ _ | unary dst _ _ | field dst _ _ _ | index dst _ _ _
  | list dst _ | call dst _ _ => some dst
  | jumpIfPresent _ _ | jumpIfFalse _ _ | jump _ => none

/-- The variable that an instruction has looked up. -/
def asks? : Instr → Option Event
  | loadParam _ name => some (.param name)
  | loadBinding _ name => some (.binding name)
  | _ => none

/-- The indices at which a run can go on behind an instruction. -/
def successors (pc : Nat) : Instr → List Nat
  | jumpIfPresent _ target | jumpIfFalse _ target => [pc + 1, target]
  | jump target => [target]
  | _ => [pc + 1]

/-- All registers that an instruction names. -/
def registers (instr : Instr) : List Nat := instr.writes?.toList ++ instr.reads

/-- The instruction makes a slot out of the slots of other registers and goes on to the next one. -/
structure Computes (instr : Instr) (dst : Nat) (srcs : List Nat) : Prop where
  writes : instr.writes? = some dst
  reads : instr.reads = srcs
  asks : instr.asks? = none
  falls : ∀ pc, instr.successors pc = [pc + 1]

end Instr

/-- All registers that the instructions name lie below a bound. -/
def RegistersBelow (bound : Nat) (code : List Instr) : Prop :=
  ∀ instr ∈ code, ∀ r ∈ instr.registers, r < bound

@[simp]
theorem registersBelow_append {bound : Nat} {a b : List Instr} :
    RegistersBelow bound (a ++ b) ↔ RegistersBelow bound a ∧ RegistersBelow bound b :=
  List.forall_mem_append

@[simp]
theorem registersBelow_singleton {bound : Nat} {instr : Instr} :
    RegistersBelow bound [instr] ↔ ∀ r ∈ instr.registers, r < bound :=
  List.forall_mem_singleton

theorem RegistersBelow.mono {bound bound' : Nat} {code : List Instr} (within : RegistersBelow bound code)
    (up : bound ≤ bound') : RegistersBelow bound' code :=
  fun instr member r named => Nat.lt_of_lt_of_le (within instr member r named) up

namespace Code

theorem emitAll_registersBelow {cs : List Code}
    (each : ∀ c ∈ cs, ∀ start next dst, dst < next →
      RegistersBelow (emit c start next dst).2 (emit c start next dst).1) (start next : Nat) :
    RegistersBelow (emitAll cs start next).2.2 (emitAll cs start next).1 ∧
      ∀ r ∈ (emitAll cs start next).2.1, r < (emitAll cs start next).2.2 := by
  induction cs generalizing start next with
  | nil => exact ⟨fun instr member => (nomatch member), fun r member => (nomatch member)⟩
  | cons c rest ih =>
    have first := each c List.mem_cons_self start (next + 1) next (Nat.lt_succ_self next)
    have others := ih (fun c member => each c (List.mem_cons_of_mem _ member))
      (start + (emit c start (next + 1) next).1.length) (emit c start (next + 1) next).2
    have up := c.next_le_emit start (next + 1) next
    have upRest := next_le_emitAll (fun c (_ : c ∈ rest) => c.next_le_emit)
      (start + (emit c start (next + 1) next).1.length) (emit c start (next + 1) next).2
    refine ⟨registersBelow_append.mpr ⟨first.mono upRest, others.1⟩, fun r member => ?_⟩
    rcases List.mem_cons.mp member with same | member
    · subst same
      exact Nat.lt_of_lt_of_le (Nat.lt_of_succ_le up) upRest
    · exact others.2 r member

/-- The registers that instructions name lie below the first one that is still unused. -/
theorem emit_registersBelow (c : Code) (start next dst : Nat) (below : dst < next) :
    RegistersBelow (c.emit start next dst).2 (c.emit start next dst).1 := by
  induction c generalizing start next dst with
  | list operands ih | call name operands ih =>
    obtain ⟨code, results⟩ := emitAll_registersBelow ih start next
    have up := next_le_emitAll (fun c (_ : c ∈ operands) => c.next_le_emit) start next
    refine registersBelow_append.mpr ⟨code, registersBelow_singleton.mpr fun r named => ?_⟩
    rcases List.mem_cons.mp named with same | named
    · rw [show r = dst from same]
      exact Nat.lt_of_lt_of_le below up
    · exact results r named
  | nullHandle | const | param | binding =>
    refine registersBelow_singleton.mpr fun r named => ?_
    exact List.mem_singleton.mp named ▸ below
  | box inner ih | resolve inner ih | truthy inner ih | await inner _ ih | unary _ inner ih | field inner _ _ ih =>
    have up := inner.next_le_emit start (next + 1) next
    refine registersBelow_append.mpr ⟨ih start (next + 1) next (Nat.lt_succ_self next), ?_⟩
    refine registersBelow_singleton.mpr fun r named => ?_
    rcases List.mem_cons.mp named with same | named
    · rw [show r = dst from same]
      exact Nat.lt_of_lt_of_le below (Nat.le_of_succ_le up)
    · exact List.mem_singleton.mp named ▸ up
  | firstPresent left right ihLeft ihRight =>
    simp only [emit, registersBelow_append, registersBelow_singleton, Instr.registers]
    have up := left.next_le_emit start next dst
    have first := ihLeft start next dst below
    have second :=
      ihRight (start + (left.emit start next dst).1.length + 1) (left.emit start next dst).2 dst (by omega)
    have upRight := right.next_le_emit (start + (left.emit start next dst).1.length + 1)
      (left.emit start next dst).2 dst
    refine ⟨⟨first.mono upRight, fun r named => ?_⟩, second⟩
    have same := List.mem_singleton.mp named
    omega
  | binary op left right ihLeft ihRight | index left right safe ihLeft ihRight =>
    simp only [emit, registersBelow_append, registersBelow_singleton]
    have up := left.next_le_emit start (next + 1) next
    have first := ihLeft start (next + 1) next (Nat.lt_succ_self next)
    generalize left.emit start (next + 1) next = emitted at up first ⊢
    have upRight := right.next_le_emit (start + emitted.1.length) (emitted.2 + 1) emitted.2
    have second := ihRight (start + emitted.1.length) (emitted.2 + 1) emitted.2 (Nat.lt_succ_self _)
    refine ⟨⟨first.mono (by omega), second⟩, fun r named => ?_⟩
    simp only [Instr.registers, Instr.writes?, Instr.reads, Option.toList_some, List.cons_append, List.nil_append,
      List.mem_cons, List.not_mem_nil, or_false] at named
    omega
  | ternary condition yes no ihCondition ihYes ihNo =>
    simp only [emit, registersBelow_append, registersBelow_singleton]
    have up := condition.next_le_emit start (next + 1) next
    have first := ihCondition start (next + 1) next (Nat.lt_succ_self next)
    generalize condition.emit start (next + 1) next = emitted at up first ⊢
    have upYes := yes.next_le_emit (start + emitted.1.length + 1) emitted.2 dst
    have second := ihYes (start + emitted.1.length + 1) emitted.2 dst (by omega)
    generalize yes.emit (start + emitted.1.length + 1) emitted.2 dst = emittedYes at upYes second ⊢
    have upNo := no.next_le_emit (start + emitted.1.length + 1 + emittedYes.1.length + 1) emittedYes.2 dst
    have third := ihNo (start + emitted.1.length + 1 + emittedYes.1.length + 1) emittedYes.2 dst (by omega)
    refine ⟨⟨⟨⟨first.mono (by omega), fun r named => ?_⟩, second.mono upNo⟩,
      fun r named => absurd named List.not_mem_nil⟩, third⟩
    have same : r = next := List.mem_singleton.mp named
    omega

end Code

/-- A program has all the registers that its instructions name. -/
theorem Program.assemble_registersBelow (c : TypedCode) :
    RegistersBelow (assemble c).registers (assemble c).instrs :=
  c.code.emit_registersBelow 0 1 0 Nat.one_pos

end LazyExpr
