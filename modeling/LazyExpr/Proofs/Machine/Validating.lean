import LazyExpr.Machine.Host

namespace LazyExpr

/-- A value that passes for the type. -/
def ParameterType.sample : ParameterType → Value
  | string => .string ""
  | int | number => .int 0
  | bool => .bool false
  | list => .list []
  | any => .null

theorem ParameterType.accepts_sample (type : ParameterType) : type.accepts type.sample := by
  cases type <;> rfl

namespace Parameter

def accepts (p : Parameter) (arg : Value) : Prop := ∀ type, p.type = some type → type.accepts arg

def sample (p : Parameter) : Value := (p.type.map ParameterType.sample).getD .null

theorem accepts_sample (p : Parameter) : p.accepts p.sample := by
  intro type asks
  rw [sample, asks]
  exact type.accepts_sample

end Parameter

namespace Signature

/-- Where a parameter has an argument in its position, it accepts it. -/
def Suits (parameters : List Parameter) (args : List Value) : Prop :=
  ∀ (i : Nat) (p : Parameter) (arg : Value), parameters[i]? = some p → args[i]? = some arg → p.accepts arg

/-- With this many arguments each required parameter has one in its position. -/
def Covered (parameters : List Parameter) (count : Nat) : Prop :=
  ∀ (i : Nat) (p : Parameter), parameters[i]? = some p → p.required → i < count

/-- What a function is promised of its arguments: no required parameter is without one, each is of the type that is
asked for in its position, and only a variadic function has more of them than parameters. -/
structure Filled (s : Signature) (args : List Value) : Prop where
  required : Covered s.parameters args.length
  typed : Suits s.parameters args
  fixed : s.parameters.length < args.length → s.variadic

/-- No required parameter stands behind an optional one. -/
def RequiredFirst (parameters : List Parameter) : Prop :=
  parameters.Pairwise fun earlier later => later.required → earlier.required

variable {p : Parameter} {parameters : List Parameter} {args : List Value} {count : Nat}

theorem suits_cons {arg : Value} :
    Suits (p :: parameters) (arg :: args) ↔ p.accepts arg ∧ Suits parameters args := by
  constructor
  · intro suits
    exact ⟨suits 0 p arg rfl rfl, fun i => suits (i + 1)⟩
  · rintro ⟨first, others⟩ (_ | i) q arg' atParameter atArg
    · cases atParameter
      cases atArg
      exact first
    · exact others i q arg' atParameter atArg

theorem covered_cons : Covered (p :: parameters) (count + 1) ↔ Covered parameters count := by
  constructor
  · intro covered i q found required
    exact Nat.lt_of_succ_lt_succ (covered (i + 1) q found required)
  · rintro covered (_ | i) q found required
    · exact Nat.succ_pos count
    · exact Nat.succ_lt_succ (covered i q found required)

theorem covered_zero : Covered parameters 0 ↔ parameters.filter (·.required) = [] := by
  rw [List.filter_eq_nil_iff]
  constructor
  · intro covered p member required
    obtain ⟨i, found⟩ := List.mem_iff_getElem?.mp member
    exact absurd (covered i p found required) (Nat.not_lt_zero i)
  · intro optional i p found required
    exact absurd required (optional p (List.mem_of_getElem? found))

/-- Arguments that leave no required parameter out are as many as these at least. -/
theorem length_filter_le_of_covered (covered : Covered parameters count) :
    (parameters.filter (·.required)).length ≤ count := by
  induction parameters generalizing count with
  | nil => exact Nat.zero_le count
  | cons p rest ih =>
    cases count with
    | zero =>
      have empty : (p :: rest).filter (·.required) = [] := covered_zero.mp covered
      rw [empty]
      exact Nat.le_refl 0
    | succ count =>
      have others := ih (covered_cons.mp covered)
      rw [List.filter_cons]
      split
      · exact Nat.succ_le_succ others
      · exact Nat.le_succ_of_le others

/-- As many arguments as there are required parameters reach all of these exactly if they come first. -/
theorem covered_required_iff :
    Covered parameters (parameters.filter (·.required)).length ↔ RequiredFirst parameters := by
  induction parameters with
  | nil => exact iff_of_true (fun i p found => by cases found) .nil
  | cons p rest ih =>
    rw [RequiredFirst, List.pairwise_cons, ← RequiredFirst, List.filter_cons]
    by_cases required : p.required
    · rw [if_pos required, List.length_cons, covered_cons, ih]
      exact (and_iff_right fun _ _ _ => required).symm
    · rw [if_neg required]
      have alone : (∀ later ∈ rest, later.required → p.required) ↔ rest.filter (·.required) = [] := by
        rw [List.filter_eq_nil_iff]
        exact forall₂_congr fun later _ => imp_congr_right fun _ => iff_of_false required id
      constructor
      · intro covered
        cases count : (rest.filter (·.required)).length with
        | zero =>
          have empty := List.eq_nil_of_length_eq_zero count
          exact ⟨alone.mpr empty, ih.mp (count ▸ covered_zero.mpr empty)⟩
        | succ fewer =>
          -- The position of the optional parameter is lost to the required ones behind it.
          rw [count, covered_cons] at covered
          have enough := length_filter_le_of_covered covered
          omega
      · rintro ⟨first, _⟩
        have empty := alone.mp first
        rw [empty, List.length_nil, covered_zero, List.filter_cons, if_neg required, empty]

/-- The types are checked in the positions that have both a parameter and an argument. -/
theorem checkTypes_ok_iff (function : String) (parameters : List Parameter) (args : List Value) :
    checkTypes function parameters args = .ok () ↔ Suits parameters args := by
  induction parameters generalizing args with
  | nil => exact iff_of_true rfl fun i p arg found => by cases found
  | cons p rest ih =>
    cases args with
    | nil => exact iff_of_true rfl fun i p arg _ found => by cases found
    | cons arg args =>
      rw [suits_cons, ← ih, checkTypes]
      cases asks : p.type with
      | none =>
        have accepts : p.accepts arg := fun type same => by cases asks.symm.trans same
        exact (and_iff_right accepts).symm
      | some type =>
        have accepts : p.accepts arg ↔ type.accepts arg := by
          rw [Parameter.accepts, asks]
          exact ⟨fun each => each type rfl, fun fits _ same => Option.some.inj same ▸ fits⟩
        rw [accepts]
        by_cases fits : type.accepts arg
        · simp only [fits, if_true, true_and]
        · simp only [fits, if_false, false_and, reduceCtorEq]

/-- What is checked is the number of the required parameters, not where they stand. -/
theorem validate_ok_iff (s : Signature) (args : List Value) : s.validate args = .ok () ↔
    s.requiredCount ≤ args.length ∧ (s.parameters.length < args.length → s.variadic) ∧ Suits s.parameters args := by
  rw [← checkTypes_ok_iff s.name, validate]
  split
  · rename_i wrong
    refine iff_of_false (by rintro ⟨⟩) fun accepted => ?_
    rcases wrong with few | ⟨fixed, many⟩
    · exact Nat.not_lt.mpr accepted.1 few
    · exact Bool.false_ne_true (fixed.symm.trans (accepted.2.1 many))
  · rename_i right
    rw [not_or, Nat.not_lt, not_and] at right
    obtain ⟨enough, fixed⟩ := right
    have spare : s.parameters.length < args.length → s.variadic := fun many =>
      (Bool.eq_false_or_eq_true s.variadic).resolve_right fun rigid => fixed rigid many
    rw [and_iff_right enough, and_iff_right spare]

/-- The shortest arguments that are numerous enough, each of the type that is asked for. -/
def shortest (s : Signature) : List Value := (s.parameters.take s.requiredCount).map Parameter.sample

theorem length_shortest (s : Signature) : s.shortest.length = s.requiredCount := by
  rw [shortest, List.length_map, List.length_take]
  exact Nat.min_eq_left (List.length_filter_le _ _)

theorem validate_shortest (s : Signature) : s.validate s.shortest = .ok () := by
  rw [validate_ok_iff, length_shortest]
  refine ⟨Nat.le_refl _, fun many => ?_, fun i p arg atParameter atArg => ?_⟩
  · exact absurd many (Nat.not_lt.mpr (List.length_filter_le _ _))
  · rw [shortest, List.getElem?_map, List.getElem?_take] at atArg
    split at atArg
    · rw [atParameter] at atArg
      cases atArg
      exact p.accepts_sample
    · cases atArg

end Signature

/-- A call reaches its function exactly if its arguments are accepted. -/
theorem Registry.call_reaches_iff {r : Registry} {f : Function} {name : String} (found : r.find? name = some f)
    (log : Log) (args : List Value) :
    (r.call log name args).2 = log ++ [.call name args] ↔ f.signature.validate args = .ok () := by
  cases accepted : f.signature.validate args with
  | error failure =>
    simp only [call, found, accepted, List.self_eq_append_right, List.cons_ne_nil, reduceCtorEq]
  | ok => simp only [call, found, accepted]

namespace Signature

/-- Arguments that fill a signature are accepted. That only these are accepted, and that no function is called with
others, holds exactly for the signatures that have no required parameter behind an optional one. -/
theorem validate_filled_iff (s : Signature) :
    (∀ args, s.Filled args → s.validate args = .ok ()) ∧
    ((∀ args, s.validate args = .ok () → s.Filled args) ↔ RequiredFirst s.parameters) ∧
    ((∀ (r : Registry) (body : Log → List Value → Outcome Value) (log : Log) (name : String) (args : List Value),
      r.find? name = some ⟨s, body⟩ → (r.call log name args).2 = log ++ [.call name args] → s.Filled args) ↔
        RequiredFirst s.parameters) ∧
    ∀ args, s.validate args = .ok () ↔
      s.requiredCount ≤ args.length ∧ (s.parameters.length < args.length → s.variadic) ∧
        Suits s.parameters args := by
  have fills : RequiredFirst s.parameters → ∀ args, s.validate args = .ok () → s.Filled args := by
    intro first args accepted
    obtain ⟨enough, fixed, typed⟩ := (s.validate_ok_iff args).mp accepted
    refine ⟨fun i p found required => ?_, typed, fixed⟩
    exact Nat.lt_of_lt_of_le (covered_required_iff.mpr first i p found required) enough
  have shows : s.Filled s.shortest → RequiredFirst s.parameters := by
    intro filled
    have covered := filled.required
    rw [length_shortest] at covered
    exact covered_required_iff.mp covered
  refine ⟨fun args filled => ?_, ⟨fun each => ?_, fills⟩, ⟨fun each => ?_, ?_⟩, s.validate_ok_iff⟩
  · exact (s.validate_ok_iff args).mpr ⟨length_filter_le_of_covered filled.required, filled.fixed, filled.typed⟩
  · exact shows (each s.shortest s.validate_shortest)
  · have found : Registry.find? [⟨s, fun _ _ => .ok .null⟩] s.name = some ⟨s, fun _ _ => .ok .null⟩ := by
      simp only [Registry.find?, List.find?, beq_self_eq_true]
    exact shows (each _ _ [] s.name s.shortest found
      ((Registry.call_reaches_iff found [] s.shortest).mpr s.validate_shortest))
  · intro first r body log name args found reached
    exact fills first args ((Registry.call_reaches_iff found log args).mp reached)

/-- One argument is accepted for an optional parameter and a required one behind it, which gets none. -/
theorem unfilled_accepted :
    let s : Signature := ⟨"f", [⟨"a", none, false⟩, ⟨"b", none, true⟩], false⟩
    s.validate [.int 1] = .ok () ∧ ¬ s.Filled [.int 1] ∧
      Registry.call [⟨s, fun _ _ => .ok .null⟩] [] "f" [.int 1] = (.ok .null, [.call "f" [.int 1]]) := by
  intro s
  refine ⟨rfl, fun filled => ?_, rfl⟩
  exact absurd (filled.required 1 ⟨"b", none, true⟩ rfl rfl) (by decide)

end Signature

end LazyExpr
