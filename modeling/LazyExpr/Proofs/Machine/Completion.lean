import LazyExpr.Proofs.Machine.Protocol

namespace LazyExpr

/-- The cells when all of them are filled: with their value, or else with the one they are going to have. -/
def Store.completed (eventual : Nat → Value) (store : Store) : Store :=
  ⟨fun id => { store.cell id with value := some ((store.cell id).value.getD (eventual id)) }⟩

/-- Slots that are ready in the first store have the same value in the second. -/
def Store.Extends (store store' : Store) : Prop :=
  ∀ slot : Slot, slot.pending? store = none → slot.plain store' = slot.plain store

namespace Store

variable {eventual : Nat → Value} {store store' : Store}

theorem Extends.refl (store : Store) : store.Extends store := fun _ _ => rfl

theorem Extends.trans {store'' : Store} (first : store.Extends store') (second : store'.Extends store'') :
    store.Extends store'' := by
  intro slot ready
  obtain ⟨v, holds⟩ := Slot.holds_of_ready ready
  have kept : slot.plain store' = .ok v := (first slot ready).trans holds
  rw [second slot (Slot.Holds.ready kept), first slot ready]

theorem extends_of_kept (kept : ∀ (h : Handle) v, h.value? store = some v → h.value? store' = some v) :
    store.Extends store' := by
  intro slot ready
  cases slot with
  | value v => rfl
  | handle h =>
    obtain ⟨v, found⟩ := Slot.handle_ready_iff.mp ready
    simp only [Slot.plain, Handle.resolve, found, kept h v found]

theorem extends_completed (eventual : Nat → Value) (store : Store) : store.Extends (store.completed eventual) := by
  refine extends_of_kept fun h v found => ?_
  cases h with
  | null | boxed _ => exact found
  | cell id =>
    have filled : (store.cell id).value = some v := found
    simp only [Handle.value?, completed, filled, Option.getD_some]

theorem extends_complete {h : Handle} {value : Value} (completes : h.complete store value = .ok store') :
    store.Extends store' :=
  extends_of_kept fun _ _ found => Handle.value?_complete completes found

theorem ready_completed (eventual : Nat → Value) (store : Store) (slot : Slot) :
    slot.pending? (store.completed eventual) = none := by
  cases slot with
  | value v => rfl
  | handle h =>
    refine Slot.handle_ready_iff.mpr ?_
    cases h with
    | null | boxed _ => exact ⟨_, rfl⟩
    | cell id => exact ⟨_, rfl⟩

/-- Filling a cell with the value that it is going to have changes nothing about the store in the end. -/
theorem completed_complete {id : Nat} (completes : (Handle.cell id).complete store (eventual id) = .ok store') :
    store'.completed eventual = store.completed eventual := by
  simp only [Handle.complete] at completes
  cases pending : (store.cell id).value with
  | some v =>
    rw [pending] at completes
    cases completes
  | none =>
    rw [pending] at completes
    cases completes
    simp only [completed, set, Store.mk.injEq]
    funext i
    by_cases same : i = id
    · simp only [same, if_true, pending, Option.getD_some, Option.getD_none]
    · simp only [same, if_false]

end Store

namespace Registers

variable {regs : Registers} {store store' : Store}

theorem readPlain_extends (more : store.Extends store') {r : Nat}
    (ready : ∀ slot, regs.read r = .ok slot → slot.pending? store = none) :
    regs.readPlain store' r = regs.readPlain store r := by
  cases read : regs.read r with
  | error failure => simp only [readPlain, read, bind, Except.bind]
  | ok slot => rw [readPlain_of_read store' read, readPlain_of_read store read, more slot (ready slot read)]

theorem readAll_extends (more : store.Extends store') {rs : List Nat}
    (ready : ∀ r ∈ rs, ∀ slot, regs.read r = .ok slot → slot.pending? store = none) :
    regs.readAll store' rs = regs.readAll store rs := by
  induction rs with
  | nil => rfl
  | cons r rest ih =>
    rw [readAll, readAll, readPlain_extends more (ready r List.mem_cons_self),
      ih fun r member => ready r (List.mem_cons_of_mem _ member)]

end Registers

/-- An instruction that looks at slots that are ready does the same in every store that extends its own. -/
theorem Instr.execute_extends {instr : Instr} {scene scene' : Scene} {regs : Registers} {log : Log}
    (host : scene'.host = scene.host) (more : scene.store.Extends scene'.store)
    (ready : ∀ r ∈ instr.reads, ∀ slot, regs.read r = .ok slot → slot.pending? scene.store = none) :
    instr.execute scene' regs log = instr.execute scene regs log := by
  have plain : ∀ r ∈ instr.reads, regs.readPlain scene'.store r = regs.readPlain scene.store r :=
    fun r member => Registers.readPlain_extends more (ready r member)
  cases instr with
  | loadNull | loadConst | jump | box | await => rfl
  | loadParam dst name | loadBinding dst name => simp only [execute, host]
  | resolve dst src | truthy dst src | unary dst op src | field dst src name safe | jumpIfFalse src target =>
    simp only [execute, plain src (List.mem_singleton_self src)]
  | binary dst op left right | index dst left right safe =>
    simp only [execute, plain left List.mem_cons_self,
      plain right (List.mem_cons_of_mem _ (List.mem_singleton_self right))]
  | list dst items | call dst name items =>
    have all : regs.readAll scene'.store items = regs.readAll scene.store items :=
      Registers.readAll_extends more ready
    simp only [execute, all, host]
  | jumpIfPresent src target =>
    simp only [execute, Slot.isPresent_eq_map]
    cases read : regs.read src with
    | error failure => rfl
    | ok slot => simp only [bind, Except.bind, more slot (ready src (List.mem_singleton_self src) slot read)]

end LazyExpr
