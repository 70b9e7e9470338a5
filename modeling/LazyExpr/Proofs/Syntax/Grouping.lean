import LazyExpr.Syntax.Chain

namespace LazyExpr

namespace Operator

/-- The level that the operators inside a left operand must reach: the operator's own, or above it where
the operator groups to the right. -/
def leftLevel (op : Operator) : Level :=
  match op.associativity with
  | .right => op.level + 1
  | _ => op.level

/-- The level that the operators inside a right operand must reach: above the operator's own, or equal
to it where the operator groups to the right. -/
def rightLevel (op : Operator) : Level :=
  match op.associativity with
  | .right => op.level
  | _ => op.level + 1

theorem lowest_le_level (op : Operator) : Level.lowest ≤ op.level := by
  cases op <;> decide

theorem level_lt_sign {op : Operator} (infixed : op.arity = 2) : op.level < negate.level := by
  revert infixed
  cases op <;> decide

theorem associativity_of_binary {op : Operator} (infixed : op.arity = 2) : op.associativity = .left := by
  revert infixed
  cases op <;> decide

theorem leftLevel_of_binary {op : Operator} (infixed : op.arity = 2) : op.leftLevel = op.level := by
  simp only [leftLevel, associativity_of_binary infixed]

theorem rightLevel_of_binary {op : Operator} (infixed : op.arity = 2) : op.rightLevel = op.level + 1 := by
  simp only [rightLevel, associativity_of_binary infixed]

/-- Operators of one level group to the same side. -/
theorem associativity_of_level {op other : Operator} (same : op.level = other.level) :
    op.associativity = other.associativity := by
  have sided (op : Operator) :
      op.associativity = if op.level = 13 ∨ op.level = 1 then .right else .left := by
    cases op <;> rfl
  rw [sided op, sided other, same]

/-- One of the two operands may hold operators of the operator's own level, the other one only tighter ones. -/
theorem levels (op : Operator) :
    (op.leftLevel = op.level ∧ op.rightLevel = op.level + 1) ∨
      (op.leftLevel = op.level + 1 ∧ op.rightLevel = op.level) := by
  unfold leftLevel rightLevel
  cases op.associativity <;> simp

theorem leftLevel_of_level {op other : Operator} (same : op.level = other.level) :
    op.leftLevel = other.leftLevel := by
  simp only [leftLevel, associativity_of_level same, same]

/-- An operator too loose for the right operand of `op` may have `op` at the root of its left operand. -/
theorem leftLevel_le {op next : Operator} (loose : next.level < op.rightLevel) : next.leftLevel ≤ op.level := by
  have own := op.levels
  have nexts := next.levels
  by_cases same : next.level = op.level
  · have left := leftLevel_of_level same
    grind
  · grind

/-- Of two operators one cannot be inside the right operand of the other with that one inside its left operand. -/
theorem not_crossed {op other : Operator} (inLeft : other.leftLevel ≤ op.level)
    (inRight : op.rightLevel ≤ other.level) : False := by
  have loose : ¬ other.level < op.rightLevel := Nat.not_lt.mpr inRight
  have own := op.levels
  have others := other.levels
  by_cases same : op.level = other.level
  · have left := leftLevel_of_level same
    grind
  · grind

theorem floor_of_yieldsTo {op next : Operator} (yields : op.yieldsTo next) :
    op.rightLevel ≤ op.floor next ∧ op.floor next ≤ next.level := by
  have own := op.levels
  simp only [yieldsTo, Bool.or_eq_true, decide_eq_true_eq, Bool.and_eq_true, beq_iff_eq] at yields
  unfold floor
  split
  · grind
  · obtain ⟨same, right⟩ := yields.resolve_left ‹_›
    have grouped : op.rightLevel = op.level := by
      simp only [rightLevel, associativity_of_level same.symm, right]
    grind

theorem lt_rightLevel_of_keeps {op next : Operator} (keeps : ¬ op.yieldsTo next) : next.level < op.rightLevel := by
  have own := op.levels
  simp only [yieldsTo, Bool.or_eq_true, decide_eq_true_eq, Bool.and_eq_true, beq_iff_eq, not_or, not_and] at keeps
  obtain ⟨notTighter, notRight⟩ := keeps
  by_cases same : next.level = op.level
  · have left := notRight same
    rw [associativity_of_level same] at left
    have grouped : op.rightLevel = op.level + 1 := by
      unfold rightLevel
      split
      · exact absurd ‹_› left
      · rfl
    grind
  · grind

end Operator

/-- A tree of operators over operands that are taken as they are, whatever they consist of. -/
inductive Grouping (α : Type)
  | operand (x : α)
  | joint (op : Operator) (left right : Grouping α)

namespace Grouping

variable {α β : Type} {least : Level} {t u : Grouping α}

/-- The operand a tree begins with. -/
def first : Grouping α → α
  | operand x => x
  | joint _ left _ => left.first

/-- The operators of a tree from left to right, each with the operand behind it. -/
def pairs : Grouping α → List (Operator × α)
  | operand _ => []
  | joint op left right => left.pairs ++ (op, right.first) :: right.pairs

/-- The tree with `join` building its nodes. -/
def build (join : Operator → α → α → α) : Grouping α → α
  | operand x => x
  | joint op left right => join op (left.build join) (right.build join)

def map (f : α → β) : Grouping α → Grouping β
  | operand x => .operand (f x)
  | joint op left right => .joint op (left.map f) (right.map f)

/-- The operator at the root, if there is one, binds at least as tightly as `least`. -/
def AtLeast (least : Level) : Grouping α → Prop
  | operand _ => True
  | joint op _ _ => least ≤ op.level

/-- At every joint the roots of both sides bind as tightly as the operator asks for on that side. -/
def Ordered : Grouping α → Prop
  | operand _ => True
  | joint op left right =>
    left.AtLeast op.leftLevel ∧ right.AtLeast op.rightLevel ∧ left.Ordered ∧ right.Ordered

/-- At every joint the root of the left side binds at least as tightly as the operator, and the root of the
right side tighter. -/
def Layered : Grouping α → Prop
  | operand _ => True
  | joint op left right =>
    left.AtLeast op.level ∧ right.AtLeast (op.level + 1) ∧ left.Layered ∧ right.Layered

/-- Operators with two operands group to the left, all of them. -/
theorem ordered_iff_layered (infixed : ∀ pair ∈ t.pairs, pair.1.arity = 2) : t.Ordered ↔ t.Layered := by
  induction t with
  | operand => exact Iff.rfl
  | joint op left right ihLeft ihRight =>
    obtain ⟨infixedLeft, here, infixedRight⟩ :=
      List.forall_mem_append.mp infixed |>.imp_right List.forall_mem_cons.mp
    simp only [Ordered, Layered, Operator.leftLevel_of_binary here, Operator.rightLevel_of_binary here,
      ihLeft infixedLeft, ihRight infixedRight]

theorem first_map (f : α → β) (t : Grouping α) : (t.map f).first = f t.first := by
  induction t with
  | operand => rfl
  | joint _ _ _ ihLeft => exact ihLeft

theorem pairs_map (f : α → β) (t : Grouping α) : (t.map f).pairs = t.pairs.map (Prod.map id f) := by
  induction t with
  | operand => rfl
  | joint op left right ihLeft ihRight => simp [map, pairs, ihLeft, ihRight, first_map]

theorem atLeast_map (f : α → β) (t : Grouping α) : (t.map f).AtLeast least ↔ t.AtLeast least := by
  cases t <;> rfl

theorem ordered_map (f : α → β) (t : Grouping α) : (t.map f).Ordered ↔ t.Ordered := by
  induction t with
  | operand => rfl
  | joint op left right ihLeft ihRight => simp only [map, Ordered, atLeast_map, ihLeft, ihRight]

/-- A function that goes through the joints can be applied to the operands. -/
theorem build_map {f : α → β} {join : Operator → α → α → α} {join' : Operator → β → β → β}
    (through : ∀ op left right, f (join op left right) = join' op (f left) (f right)) (t : Grouping α) :
    (t.map f).build join' = f (t.build join) := by
  induction t with
  | operand => rfl
  | joint op left right ihLeft ihRight => simp only [map, build, ihLeft, ihRight, through]

/-- What holds of the operands and is passed on by joints holds of the whole tree. -/
theorem build_forall {P : α → Prop} {Q : Operator → Prop} {join : Operator → α → α → α}
    (joins : ∀ {op left right}, Q op → P left → P right → P (join op left right)) (first : P t.first)
    (later : ∀ pair ∈ t.pairs, Q pair.1 ∧ P pair.2) : P (t.build join) := by
  induction t with
  | operand => exact first
  | joint op left right ihLeft ihRight =>
    obtain ⟨inLeft, here, inRight⟩ := List.forall_mem_append.mp later |>.imp_right List.forall_mem_cons.mp
    exact joins here.1 (ihLeft first inLeft) (ihRight here.2 inRight)

theorem AtLeast.mono {lower : Level} (bound : t.AtLeast least) (le : lower ≤ least) : t.AtLeast lower := by
  cases t with
  | operand => trivial
  | joint => exact Nat.le_trans le bound

/-- Below the root all operators bind at least as tightly as it. -/
theorem Ordered.le_of_mem (ordered : t.Ordered) (bound : t.AtLeast least) {pair : Operator × α}
    (member : pair ∈ t.pairs) : least ≤ pair.1.level := by
  induction t generalizing least with
  | operand => cases member
  | joint op left right ihLeft ihRight =>
    obtain ⟨boundLeft, boundRight, orderedLeft, orderedRight⟩ := ordered
    have own := op.levels
    have root : least ≤ op.level := bound
    rcases List.mem_append.mp member with inLeft | inRight
    · have above := ihLeft orderedLeft boundLeft inLeft
      grind
    · rcases List.mem_cons.mp inRight with rfl | inRight
      · exact root
      · have above := ihRight orderedRight boundRight inRight
        grind

/-- Two ordered trees do not disagree on which of two operators is the root. -/
theorem Ordered.not_crossed {op op' : Operator} {left right left' right' : Grouping α} {x y : α}
    {mid last : List (Operator × α)} (ordered : (joint op left right).Ordered)
    (ordered' : (joint op' left' right').Ordered) (inLeft : left'.pairs = left.pairs ++ (op, x) :: mid)
    (inRight : right.pairs = mid ++ (op', y) :: last) : False := by
  have member : (op, x) ∈ left'.pairs := by simp [inLeft]
  have member' : (op', y) ∈ right.pairs := by simp [inRight]
  have below : op'.leftLevel ≤ op.level := ordered'.2.2.1.le_of_mem ordered'.1 member
  have above : op.rightLevel ≤ op'.level := ordered.2.2.2.le_of_mem ordered.2.1 member'
  exact Operator.not_crossed below above

/-- An ordered tree is determined by its operands and operators from left to right. -/
theorem Ordered.unique (ordered : t.Ordered) (ordered' : u.Ordered) (sameFirst : t.first = u.first)
    (same : t.pairs = u.pairs) : t = u := by
  induction t generalizing u with
  | operand x =>
    cases u with
    | operand y => exact congrArg operand sameFirst
    | joint op left right => simp [pairs] at same
  | joint op left right ihLeft ihRight =>
    cases u with
    | operand y => simp [pairs] at same
    | joint op' left' right' =>
      rcases List.append_eq_append_iff.mp same with ⟨mid, inLeft, split⟩ | ⟨mid, inLeft, split⟩
      all_goals rcases mid with _ | ⟨pair, mid⟩
      · obtain ⟨⟨rfl, firsts⟩, rights⟩ := by simpa using split
        have lefts : left = left' := ihLeft ordered.2.2.1 ordered'.2.2.1 sameFirst (by simpa using inLeft.symm)
        rw [lefts, ihRight ordered.2.2.2 ordered'.2.2.2 firsts rights]
      · obtain ⟨rfl, inRight⟩ := List.cons.inj split
        exact (ordered.not_crossed ordered' inLeft inRight).elim
      · obtain ⟨⟨rfl, firsts⟩, rights⟩ := by simpa using split
        have lefts : left = left' := ihLeft ordered.2.2.1 ordered'.2.2.1 sameFirst (by simpa using inLeft)
        rw [lefts, ihRight ordered.2.2.2 ordered'.2.2.2 firsts.symm rights.symm]
      · obtain ⟨rfl, inRight⟩ := List.cons.inj split
        exact (ordered'.not_crossed ordered inLeft inRight).elim

end Grouping

end LazyExpr
