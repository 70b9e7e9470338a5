import LazyExpr.Machine.Frame

namespace LazyExpr

namespace Slot

/-- The slot is a plain value or a handle that is ready, with this value. -/
def Holds (store : Store) (slot : Slot) (value : Value) : Prop := slot.plain store = .ok value

variable {store : Store} {slot : Slot} {value : Value}

theorem handle_ready_iff {h : Handle} :
    (handle h).pending? store = none ↔ ∃ value, h.value? store = some value := by
  cases found : h.value? store with
  | some value => simp [pending?, Handle.isReady, found]
  | none => simp [pending?, Handle.isReady, found]

theorem holds_of_ready (ready : slot.pending? store = none) : ∃ value, slot.Holds store value := by
  cases slot with
  | value v => exact ⟨v, rfl⟩
  | handle h =>
    simp only [pending?, Handle.isReady] at ready
    simp only [Holds, plain, Handle.resolve]
    cases found : h.value? store with
    | some v => exact ⟨v, rfl⟩
    | none => simp [found] at ready

theorem Holds.ready (holds : slot.Holds store value) : slot.pending? store = none := by
  cases slot with
  | value v => rfl
  | handle h =>
    simp only [Holds, plain, Handle.resolve] at holds
    cases found : h.value? store with
    | some v => simp only [pending?, Handle.isReady, found, Option.isSome_some, if_true]
    | none =>
      rw [found] at holds
      cases holds

theorem Holds.toHandle (holds : slot.Holds store value) : (Slot.handle slot.toHandle).Holds store value := by
  cases slot with
  | value v =>
    cases holds
    rfl
  | handle h => exact holds

theorem Holds.isPresent (holds : slot.Holds store value) : slot.isPresent store = .ok !value.isNullish := by
  cases slot with
  | value v =>
    cases holds
    rfl
  | handle h =>
    have resolved : h.resolve store = .ok value := holds
    simp only [Slot.isPresent, Handle.unlessNullish, resolved]
    cases nullish : value.isNullish <;> simp [nullish, bind, Except.bind, pure, Except.pure]

theorem isPresent_eq_map (store : Store) (slot : Slot) :
    slot.isPresent store = (slot.plain store).map fun value => !value.isNullish := by
  cases slot with
  | value v => rfl
  | handle h =>
    simp only [isPresent, plain, Handle.unlessNullish]
    cases h.resolve store with
    | error failure => rfl
    | ok v => cases nullish : v.isNullish <;> simp [nullish, bind, Except.bind, pure, Except.pure, Except.map]

end Slot

theorem Registers.readPlain_of_read (store : Store) {regs : Registers} {r : Nat} {slot : Slot}
    (read : regs.read r = .ok slot) : regs.readPlain store r = slot.plain store := by
  simp only [readPlain, read]
  rfl

theorem writeResult_eq_map (dst : Nat) (result : Outcome Value) :
    writeResult dst result = (result.map .value).map (.write dst) := by
  cases result <;> rfl

end LazyExpr
