import LazyExpr.Lowering.Eager
import LazyExpr.Proofs.Machine.Execution
import LazyExpr.Proofs.Machine.Readiness

namespace LazyExpr

/-- Whether a value is of a kind. -/
def Kind.admits : Kind → Value → Bool
  | nullish, v => v.isNullish
  | bool, v => v.asBool?.isSome
  | int, v => v.asInt?.isSome
  | float, .float _ => true
  | string, v => v.asString?.isSome
  | list, v => v.asList?.isSome
  | any, _ => true
  | _, _ => false

/-- Whether a value can be found in something that is stored like this. -/
def Storage.admits : Storage → Value → Bool
  | rawInt, v => Kind.int.admits v
  | rawFloat, v => Kind.float.admits v
  | rawBool, v => Kind.bool.admits v
  | data kind, v => kind.admits v
  | deferred, _ => true

/-- The slot is as its storage says: a plain scalar of its type, a value of the kind that is present, plain or in a
handle that is ready, or anything. -/
def Slot.Fits (store : Store) (slot : Slot) : Storage → Prop
  | .rawInt => ∃ n, slot = .value (.int n)
  | .rawFloat => ∃ x, slot = .value (.float x)
  | .rawBool => ∃ b, slot = .value (.bool b)
  | .data kind => ∃ v, slot.Holds store v ∧ kind.admits v
  | .deferred => True

namespace Kind

variable {v : Value}

theorem admits_int : int.admits v ↔ ∃ n, v = .int n := by
  cases v <;> simp [admits, Value.asInt?]

theorem admits_float : float.admits v ↔ ∃ x, v = .float x := by
  cases v <;> simp [admits]

theorem admits_bool : bool.admits v ↔ ∃ b, v = .bool b := by
  cases v <;> simp [admits, Value.asBool?]

end Kind

namespace Slot

variable {store : Store} {slot : Slot} {storage : Storage} {v : Value}

theorem fits_value (admits : storage.admits v) : (Slot.value v).Fits store storage := by
  cases storage with
  | rawInt =>
    obtain ⟨n, same⟩ := Kind.admits_int.mp admits
    exact ⟨n, congrArg Slot.value same⟩
  | rawFloat =>
    obtain ⟨x, same⟩ := Kind.admits_float.mp admits
    exact ⟨x, congrArg Slot.value same⟩
  | rawBool =>
    obtain ⟨b, same⟩ := Kind.admits_bool.mp admits
    exact ⟨b, congrArg Slot.value same⟩
  | data kind => exact ⟨v, rfl, admits⟩
  | deferred => trivial

theorem Fits.admits (fits : slot.Fits store storage) (holds : slot.Holds store v) : storage.admits v := by
  cases storage with
  | rawInt | rawFloat | rawBool =>
    obtain ⟨x, same⟩ := fits
    subst same
    cases holds
    rfl
  | data kind =>
    obtain ⟨v', holds', admits⟩ := fits
    cases (holds.symm.trans holds' : Except.ok v = Except.ok v')
    exact admits
  | deferred => rfl

/-- What is not stored as a handle that may be pending is present. -/
theorem Fits.present (fits : slot.Fits store storage) (settled : storage ≠ .deferred) :
    ∃ v, slot.Holds store v := by
  cases storage with
  | rawInt | rawFloat | rawBool =>
    obtain ⟨x, same⟩ := fits
    subst same
    exact ⟨_, rfl⟩
  | data kind =>
    obtain ⟨v, holds, _⟩ := fits
    exact ⟨v, holds⟩
  | deferred => exact absurd rfl settled

theorem Fits.any (fits : slot.Fits store storage) (settled : storage ≠ .deferred) :
    slot.Fits store (.data .any) := by
  obtain ⟨v, holds⟩ := fits.present settled
  exact ⟨v, holds, rfl⟩

/-- What comes from one of two places fits the common storage of both. -/
theorem Fits.merge {a b : Storage} (fits : slot.Fits store a) : slot.Fits store (a.merge b) := by
  unfold Storage.merge
  split
  · exact fits
  · split
    · rename_i both
      refine fits.any fun deferred => ?_
      rw [deferred] at both
      cases both
    · trivial

/-- Wrapping keeps the kind of a scalar. -/
theorem Fits.boxed (fits : slot.Fits store storage) (raw : storage.isRaw) :
    (Slot.handle slot.toHandle).Fits store storage.boxed := by
  cases storage with
  | rawInt | rawFloat | rawBool =>
    obtain ⟨x, same⟩ := fits
    subst same
    exact ⟨_, rfl, rfl⟩
  | data | deferred => cases raw

end Slot

namespace Value

variable {a b v : Value}

theorem ofWord_int {n : Option Word} (result : ofWord n = .ok v) : ∃ k, v = .int k := by
  cases n with
  | none => cases result
  | some k =>
    cases result
    exact ⟨k, rfl⟩

theorem compare_bool {holds : Float → Float → Bool} (result : compare holds a b = .ok v) : ∃ t, v = .bool t := by
  obtain ⟨x, _, rest⟩ := Outcome.bind_eq_ok result
  obtain ⟨y, _, rest⟩ := Outcome.bind_eq_ok rest
  cases rest
  exact ⟨_, rfl⟩

/-- The value is an integer if both operands are, and else a double. -/
def Widens (a b v : Value) : Prop :=
  (Kind.int.admits a ∧ Kind.int.admits b ∧ Kind.int.admits v) ∨
    (¬ (Kind.int.admits a ∧ Kind.int.admits b) ∧ Kind.float.admits v)

theorem widens_ints {m n : Word} {result : Option Word} (given : ofWord result = .ok v) :
    Widens (.int m) (.int n) v := by
  obtain ⟨k, same⟩ := ofWord_int given
  exact .inl ⟨rfl, rfl, same ▸ rfl⟩

theorem widens_floats (other : ∀ m n, a = .int m → b = .int n → False) (z : Float) : Widens a b (.float z) := by
  refine .inr ⟨fun ⟨first, second⟩ => ?_, rfl⟩
  obtain ⟨m, atFirst⟩ := Kind.admits_int.mp first
  obtain ⟨n, atSecond⟩ := Kind.admits_int.mp second
  exact other m n atFirst atSecond

theorem arithmetic_widens {onWords : Word → Word → Outcome Value} {onFloats : Float → Float → Outcome Value}
    (words : ∀ m n v, onWords m n = .ok v → ∃ result, ofWord result = .ok v)
    (floats : ∀ x y v, onFloats x y = .ok v → ∃ z, v = .float z)
    (result : arithmetic onWords onFloats a b = .ok v) : Widens a b v := by
  unfold arithmetic at result
  split at result
  · rename_i m n
    obtain ⟨k, given⟩ := words m n v result
    exact widens_ints given
  · rename_i other
    obtain ⟨x, _, rest⟩ := Outcome.bind_eq_ok result
    obtain ⟨y, _, rest⟩ := Outcome.bind_eq_ok rest
    obtain ⟨z, same⟩ := floats x y v rest
    exact same ▸ widens_floats other z

theorem remainder_widens (result : a.remainder b = .ok v) : Widens a b v := by
  refine arithmetic_widens (fun m n v given => ?_) (fun x y v given => ?_) result
  · split at given
    · cases given
    · exact ⟨_, given⟩
  · split at given
    · cases given
    · cases given
      exact ⟨_, rfl⟩

/-- Of numbers the sum is a number. -/
theorem add_widens {x y : Float} (first : a.asNumber? = some x) (second : b.asNumber? = some y)
    (result : a.add b = .ok v) : Widens a b v := by
  unfold add at result
  split at result
  · exact widens_ints result
  · rename_i other
    rw [first, second] at result
    cases result
    exact widens_floats other _

theorem divide_float (result : a.divide b = .ok v) : ∃ z, v = .float z := by
  obtain ⟨x, _, rest⟩ := Outcome.bind_eq_ok result
  obtain ⟨y, _, rest⟩ := Outcome.bind_eq_ok rest
  split at rest
  · cases rest
  · cases rest
    exact ⟨_, rfl⟩

theorem bitwise_int {operation : Word → Word → Option Word} (result : bitwise operation a b = .ok v) :
    ∃ k, v = .int k := by
  obtain ⟨m, _, rest⟩ := Outcome.bind_eq_ok result
  obtain ⟨n, _, rest⟩ := Outcome.bind_eq_ok rest
  exact ofWord_int rest

end Value

namespace Storage

variable {l r storage : Storage} {a b v : Value}

/-- The storage of sums, differences, products and remainders. -/
def arithmetic (l r : Storage) : Storage :=
  if l == rawInt && r == rawInt then rawInt
  else if l.isRawNumber && r.isRawNumber then rawFloat
  else data .any

theorem asNumber?_of_raw (raw : storage.isRawNumber) (admits : storage.admits v) : ∃ x, v.asNumber? = some x := by
  cases storage with
  | rawInt =>
    obtain ⟨n, same⟩ := Kind.admits_int.mp admits
    exact ⟨_, congrArg Value.asNumber? same⟩
  | rawFloat =>
    obtain ⟨x, same⟩ := Kind.admits_float.mp admits
    exact ⟨x, congrArg Value.asNumber? same⟩
  | rawBool | data | deferred => cases raw

theorem eq_rawInt_of_raw (raw : storage.isRawNumber) (admits : storage.admits v) (int : Kind.int.admits v) :
    storage = rawInt := by
  cases storage with
  | rawInt => rfl
  | rawFloat =>
    obtain ⟨n, same⟩ := Kind.admits_int.mp int
    rw [same] at admits
    cases admits
  | rawBool | data | deferred => cases raw

theorem admits_arithmetic (left : l.admits a) (right : r.admits b)
    (widens : l.isRawNumber → r.isRawNumber → Value.Widens a b v) : (l.arithmetic r).admits v := by
  unfold arithmetic
  split
  · rename_i ints
    obtain ⟨atLeft, atRight⟩ := Bool.and_eq_true_iff.mp ints
    rw [eq_of_beq atLeft] at left widens
    rw [eq_of_beq atRight] at right widens
    rcases widens rfl rfl with ⟨_, _, int⟩ | ⟨other, _⟩
    · exact int
    · exact absurd ⟨left, right⟩ other
  · rename_i other
    split
    · rename_i numbers
      obtain ⟨atLeft, atRight⟩ := Bool.and_eq_true_iff.mp numbers
      rcases widens atLeft atRight with ⟨first, second, _⟩ | ⟨_, float⟩
      · rw [eq_rawInt_of_raw atLeft left first, eq_rawInt_of_raw atRight right second] at other
        exact absurd rfl other
      · exact float
    · rfl

end Storage

namespace Operator

variable {op : Operator} {l r : Storage} {a b v : Value}

theorem divide_resultStorage (l r : Storage) :
    divide.resultStorage l r = if l.isRawNumber && r.isRawNumber then .rawFloat else .data .any := by
  cases l <;> cases r <;> rfl

theorem bitwise_resultStorage (bitwise : op.isBitwise) (l r : Storage) :
    op.resultStorage l r = if l == .rawInt && r == .rawInt then .rawInt else .data .any := by
  cases op with
  | shiftLeft | shiftRight | bitAnd | bitXor | bitOr => rfl
  | _ => cases bitwise

/-- The storage that is recorded for the result of a binary operator is right about every result. -/
theorem admits_resultStorage (left : l.admits a) (right : r.admits b) (result : op.applyBinary a b = .ok v) :
    (op.resultStorage l r).admits v := by
  have ofBitwise : op.isBitwise → (∃ k, v = .int k) → (op.resultStorage l r).admits v := by
    intro bitwise ⟨k, same⟩
    rw [bitwise_resultStorage bitwise, same]
    split <;> rfl
  cases op with
  | equal | different | and | or =>
    cases result
    rfl
  | less | greater | atMost | atLeast =>
    obtain ⟨t, same⟩ := Value.compare_bool result
    exact same ▸ rfl
  | coalesce => rfl
  | plus =>
    refine Storage.admits_arithmetic left right fun rawLeft rawRight => ?_
    obtain ⟨x, first⟩ := Storage.asNumber?_of_raw rawLeft left
    obtain ⟨y, second⟩ := Storage.asNumber?_of_raw rawRight right
    exact Value.add_widens first second result
  | minus | times =>
    refine Storage.admits_arithmetic left right fun _ _ => ?_
    refine Value.arithmetic_widens (fun _ _ _ given => ⟨_, given⟩) (fun _ _ _ given => ?_) result
    cases given
    exact ⟨_, rfl⟩
  | remainder => exact Storage.admits_arithmetic left right fun _ _ => Value.remainder_widens result
  | divide =>
    obtain ⟨z, same⟩ := Value.divide_float result
    rw [divide_resultStorage, same]
    split <;> rfl
  | shiftLeft | shiftRight | bitAnd | bitXor | bitOr => exact ofBitwise rfl (Value.bitwise_int result)
  | assertPresent | negate | not | choose => cases result

theorem admits_unaryStorage (operand : l.admits a) (result : op.applyUnary a = .ok v) :
    (op.unaryStorage l).admits v := by
  cases op with
  | not =>
    cases result
    rfl
  | negate =>
    change (if l.isRaw then l else .data .any : Storage).admits v
    split
    · rename_i raw
      cases l with
      | rawInt =>
        obtain ⟨n, same⟩ := Kind.admits_int.mp operand
        subst same
        obtain ⟨k, same⟩ := Value.ofWord_int result
        exact same ▸ rfl
      | rawFloat =>
        obtain ⟨x, same⟩ := Kind.admits_float.mp operand
        subst same
        cases result
        rfl
      | rawBool =>
        obtain ⟨t, same⟩ := Kind.admits_bool.mp operand
        subst same
        cases result
      | data | deferred => cases raw
    · rfl
  | assertPresent =>
    have same : a = v := by
      simp only [applyUnary, Value.present] at result
      split at result
      · cases result
      · exact Except.ok.inj result
    change (if l.isRaw then l else .data .any : Storage).admits v
    split
    · exact same ▸ operand
    · rfl
  | _ => cases result

end Operator

end LazyExpr
