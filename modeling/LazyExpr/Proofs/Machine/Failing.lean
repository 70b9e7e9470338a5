import LazyExpr.Proofs.Machine.Execution
import LazyExpr.Proofs.Machine.Readiness

namespace LazyExpr

/-- The kinds of failures that operations on values and the checks of a call raise. All others come from
registers, from handles that are not ready, from limits or from the host. -/
def FailureKind.isOperational : FailureKind → Bool
  | undefinedFunction | typeMismatch | arithmetic | nullAccess => true
  | _ => false

namespace Outcome

variable {α β : Type} {Q : Failure → Prop}

/-- It does not fail in any other way. -/
def Within (Q : Failure → Prop) (x : Outcome α) : Prop :=
  ∀ failure, x = .error failure → Q failure

/-- It fails only as operations do. -/
abbrev Operational (x : Outcome α) : Prop := Within (fun failure => failure.kind.isOperational) x

theorem Within.ok (a : α) : Within Q (.ok a) :=
  fun _ found => nomatch found

theorem Within.error {failure : Failure} (holds : Q failure) : Within Q (.error failure : Outcome α) :=
  fun _ found => Except.error.inj found ▸ holds

theorem Within.bind {x : Outcome α} {k : α → Outcome β} (first : Within Q x)
    (rest : ∀ a, x = .ok a → Within Q (k a)) :
    Within Q (x >>= k) := by
  cases x with
  | error failure => exact .error (first failure rfl)
  | ok a => exact rest a rfl

theorem Within.map {x : Outcome α} (f : α → β) (within : Within Q x) : Within Q (x.map f) := by
  cases x with
  | error failure => exact .error (within failure rfl)
  | ok a => exact .ok (f a)

theorem Within.mono {Q' : Failure → Prop} {x : Outcome α} (within : Within Q x)
    (weaker : ∀ failure, Q failure → Q' failure) : Within Q' x :=
  fun failure failed => weaker failure (within failure failed)

end Outcome

open Outcome

namespace Value

theorem number_operational (v : Value) : Operational v.number := by
  unfold number
  split
  · exact .ok _
  · exact .error rfl

theorem integer_operational (v : Value) : Operational v.integer := by
  unfold integer
  split
  · exact .ok _
  · exact .error rfl

theorem ofWord_operational (n : Option Word) : Operational (ofWord n) := by
  cases n with
  | none => exact .error rfl
  | some n => exact .ok _

theorem compare_operational (holds : Float → Float → Bool) (a b : Value) : Operational (compare holds a b) :=
  (number_operational a).bind fun _ _ => (number_operational b).bind fun _ _ => .ok _

theorem arithmetic_operational {onWords : Word → Word → Outcome Value} {onFloats : Float → Float → Outcome Value}
    (words : ∀ m n, Operational (onWords m n)) (floats : ∀ x y, Operational (onFloats x y)) (a b : Value) :
    Operational (arithmetic onWords onFloats a b) := by
  unfold arithmetic
  split
  · exact words _ _
  · exact (number_operational a).bind fun x _ => (number_operational b).bind fun y _ => floats x y

theorem add_operational (a b : Value) : Operational (a.add b) := by
  unfold add
  split
  · exact ofWord_operational _
  · split
    · exact .ok _
    · split
      · exact .ok _
      · exact .error rfl

theorem remainder_operational (a b : Value) : Operational (a.remainder b) := by
  refine arithmetic_operational (fun m n => ?_) (fun x y => ?_) a b
  · split
    · exact .error rfl
    · exact ofWord_operational _
  · split
    · exact .error rfl
    · exact .ok _

theorem divide_operational (a b : Value) : Operational (a.divide b) := by
  refine (number_operational a).bind fun x _ => (number_operational b).bind fun y _ => ?_
  split
  · exact .error rfl
  · exact .ok _

theorem bitwise_operational (operation : Word → Word → Option Word) (a b : Value) :
    Operational (bitwise operation a b) :=
  (integer_operational a).bind fun _ _ => (integer_operational b).bind fun _ _ => ofWord_operational _

theorem negative_operational (v : Value) : Operational v.negative := by
  unfold negative
  split
  · exact ofWord_operational _
  · exact (number_operational v).bind fun _ _ => .ok _

theorem present_operational (v : Value) : Operational v.present := by
  unfold present
  split
  · exact .error rfl
  · exact .ok _

theorem ofNullish_operational (base : Value) (safe : Bool) (key : String) :
    Operational (base.ofNullish safe key) := by
  unfold ofNullish
  split
  · exact .ok _
  · exact .error rfl

theorem field_operational (base : Value) (name : String) (safe : Bool) : Operational (base.field name safe) := by
  cases base with
  | null | undefined => exact ofNullish_operational _ safe name
  | record fields => exact .ok _
  | list _ | string _ =>
    simp only [field]
    split
    · exact .ok _
    · exact .error rfl
  | bool _ | int _ | float _ => exact .error rfl

theorem index_operational (base key : Value) (safe : Bool) : Operational (base.index key safe) := by
  unfold index
  split
  · exact ofNullish_operational _ _ _
  · exact ofNullish_operational _ _ _
  · exact .ok _
  · exact .ok _
  · exact .error rfl

end Value

namespace Operator

theorem applyBinary_operational (op : Operator) (a b : Value) : Operational (op.applyBinary a b) := by
  cases op with
  | equal | different | and | or | coalesce => exact .ok _
  | less | greater | atMost | atLeast => exact Value.compare_operational _ a b
  | plus => exact Value.add_operational a b
  | minus | times =>
    exact Value.arithmetic_operational (fun _ _ => Value.ofWord_operational _) (fun _ _ => .ok _) a b
  | remainder => exact Value.remainder_operational a b
  | divide => exact Value.divide_operational a b
  | shiftLeft | shiftRight | bitAnd | bitXor | bitOr => exact Value.bitwise_operational _ a b
  | assertPresent | negate | not | choose => exact .error rfl

theorem applyUnary_operational (op : Operator) (v : Value) : Operational (op.applyUnary v) := by
  cases op with
  | not => exact .ok _
  | negate => exact Value.negative_operational v
  | assertPresent => exact Value.present_operational v
  | _ => exact .error rfl

end Operator

theorem Signature.checkTypes_operational (function : String) (parameters : List Parameter) (args : List Value) :
    Operational (checkTypes function parameters args) := by
  induction parameters generalizing args with
  | nil => exact .ok ()
  | cons parameter rest ih =>
    cases args with
    | nil => exact .ok ()
    | cons arg args =>
      simp only [checkTypes]
      split
      · split
        · exact ih args
        · exact .error rfl
      · exact ih args

theorem Signature.validate_operational (s : Signature) (args : List Value) : Operational (s.validate args) := by
  unfold validate
  split
  · exact .error rfl
  · exact checkTypes_operational s.name s.parameters args

/-- A call that does not reach its function fails as operations do. -/
theorem Registry.call_operational (r : Registry) (log : Log) (name : String) (args : List Value) :
    (Operational (r.call log name args).1 ∧ (r.call log name args).2 = log) ∨
      (r.call log name args).2 = log ++ [.call name args] := by
  unfold call
  split
  · exact .inl ⟨.error rfl, rfl⟩
  · rename_i f found
    have validated := f.signature.validate_operational args
    split
    · rename_i failure failed
      exact .inl ⟨.error (validated failure failed), rfl⟩
    · exact .inr rfl

namespace Registers

variable {regs : Registers} {store : Store} {Q : Failure → Prop}

theorem read_within {r : Nat} (unwritten : regs.read r = .error (.unwritten r) → Q (.unwritten r)) :
    Within Q (regs.read r) := by
  intro failure failed
  have same : failure = .unwritten r := by
    unfold read at failed
    split at failed
    · cases failed
    · exact (Except.error.inj failed).symm
  exact same ▸ unwritten (same ▸ failed)

/-- A register is not read as a plain value only if it has not been written or holds a handle that is pending. -/
theorem readPlain_within {r : Nat} (unwritten : regs.read r = .error (.unwritten r) → Q (.unwritten r))
    (unready : ∀ slot, regs.read r = .ok slot → slot.pending? store ≠ none → Q .notReady) :
    Within Q (regs.readPlain store r) := by
  refine (read_within unwritten).bind fun slot found failure failed => ?_
  cases pending : slot.pending? store with
  | none =>
    obtain ⟨value, holds⟩ := Slot.holds_of_ready pending
    cases (show slot.plain store = .ok value from holds).symm.trans failed
  | some awaited =>
    have same : failure = .notReady := by
      cases slot with
      | value v => cases failed
      | handle h =>
        simp only [Slot.plain, Handle.resolve] at failed
        split at failed
        · cases failed
        · exact (Except.error.inj failed).symm
    exact same ▸ unready slot found (by simp only [pending, ne_eq, reduceCtorEq, not_false_eq_true])

theorem readAll_within {rs : List Nat} (each : ∀ r ∈ rs, Within Q (regs.readPlain store r)) :
    Within Q (regs.readAll store rs) := by
  induction rs with
  | nil => exact .ok []
  | cons r rest ih =>
    refine (each r List.mem_cons_self).bind fun _ _ => ?_
    exact (ih fun r member => each r (List.mem_cons_of_mem _ member)).bind fun _ _ => .ok _

end Registers

namespace Instr

/-- What the failure of an instruction is due to, and what has happened by then. -/
inductive Fails (instr : Instr) (scene : Scene) (regs : Registers) (log : Log) : Failure → Log → Prop
  | operation {failure} : failure.kind.isOperational → Fails instr scene regs log failure log
  | unwritten {r} : r ∈ instr.reads → regs.read r = .error (.unwritten r) →
      Fails instr scene regs log (.unwritten r) log
  | unready {r slot} : r ∈ instr.reads → regs.read r = .ok slot → slot.pending? scene.store ≠ none →
      Fails instr scene regs log .notReady log
  | host {event failure} : scene.host.answer log event = .error failure →
      Fails instr scene regs log failure (log ++ [event])

variable {instr : Instr} {scene : Scene} {regs : Registers} {log log' : Log} {failure : Failure}

theorem execute_fails (run : instr.execute scene regs log = (.error failure, log')) :
    instr.Fails scene regs log failure log' := by
  have here : ∀ {x : Outcome Action}, Within (instr.Fails scene regs log · log) x →
      (x, log) = (.error failure, log') → instr.Fails scene regs log failure log' := by
    intro x within failed
    cases failed
    exact within failure rfl
  have read : ∀ r ∈ instr.reads, Within (instr.Fails scene regs log · log) (regs.read r) :=
    fun r member => Registers.read_within (.unwritten member)
  have plain : ∀ r ∈ instr.reads, Within (instr.Fails scene regs log · log) (regs.readPlain scene.store r) :=
    fun r member => Registers.readPlain_within (.unwritten member) fun slot => .unready member
  have operates : ∀ {x : Outcome Value}, Operational x → Within (instr.Fails scene regs log · log) x :=
    fun operational => operational.mono fun _ => .operation
  cases instr with
  | loadNull | loadConst | jump => cases run
  | loadParam dst name =>
    have answered : scene.host.answer log (.param name) = .error failure :=
      Outcome.map_eq_error (congrArg Prod.fst run)
    have logged : log ++ [.param name] = log' := congrArg Prod.snd run
    exact logged ▸ .host answered
  | loadBinding dst name =>
    have answered : scene.host.answer log (.binding name) = .error failure :=
      Outcome.map_eq_error (congrArg Prod.fst run)
    have logged : log ++ [.binding name] = log' := congrArg Prod.snd run
    exact logged ▸ .host answered
  | box dst src | await dst src point => exact here ((read src (List.mem_singleton_self _)).map _) run
  | resolve dst src => exact here ((plain src (List.mem_singleton_self _)).map _) run
  | truthy dst src => exact here (((plain src (List.mem_singleton_self _)).map _).map _) run
  | unary dst op src =>
    refine here (Within.map _ ?_) run
    exact (plain src (List.mem_singleton_self _)).bind fun v _ => operates (op.applyUnary_operational v)
  | field dst base name safe =>
    refine here (Within.map _ ?_) run
    exact (plain base (List.mem_singleton_self _)).bind fun v _ => operates (v.field_operational name safe)
  | binary dst op left right =>
    refine here (Within.map _ ?_) run
    refine (plain left List.mem_cons_self).bind fun a _ => ?_
    refine (plain right (List.mem_cons_of_mem _ (List.mem_singleton_self _))).bind fun b _ => ?_
    exact operates (op.applyBinary_operational a b)
  | index dst base key safe =>
    refine here (Within.map _ ?_) run
    refine (plain base List.mem_cons_self).bind fun a _ => ?_
    refine (plain key (List.mem_cons_of_mem _ (List.mem_singleton_self _))).bind fun b _ => ?_
    exact operates (a.index_operational b safe)
  | list dst items => exact here (((Registers.readAll_within plain).map _).map _) run
  | call dst name args =>
    simp only [execute] at run
    cases all : regs.readAll scene.store args with
    | error unread =>
      rw [all] at run
      cases run
      exact Registers.readAll_within plain _ all
    | ok values =>
      rw [all] at run
      have failed := Outcome.map_eq_error (congrArg Prod.fst run)
      have logged : (scene.host.registry.call log name values).2 = log' := congrArg Prod.snd run
      rcases scene.host.registry.call_operational log name values with ⟨operational, unlogged⟩ | reached
      · exact (unlogged.symm.trans logged) ▸ .operation (operational _ failed)
      · have answered : scene.host.answer log (.call name values) = .error failure := by
          simp only [Host.answer, failed]
          rfl
        exact (reached.symm.trans logged) ▸ .host answered
  | jumpIfPresent src target =>
    refine here ((read src (List.mem_singleton_self _)).bind fun slot found => ?_) run
    refine Within.bind (fun failure failed => ?_) fun _ _ => .ok _
    have failed' : (slot.plain scene.store).map (fun value => !value.isNullish) = .error failure := by
      rw [← Slot.isPresent_eq_map]
      exact failed
    refine plain src (List.mem_singleton_self _) failure ?_
    rw [Registers.readPlain_of_read scene.store found]
    exact Outcome.map_eq_error failed'
  | jumpIfFalse condition target =>
    exact here ((plain condition (List.mem_singleton_self _)).bind fun _ _ => .ok _) run

end Instr

end LazyExpr
