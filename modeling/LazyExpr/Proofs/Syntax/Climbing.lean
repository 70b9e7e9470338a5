import LazyExpr.Proofs.Syntax.Grouping

namespace LazyExpr

namespace Grouping

variable {α : Type} {join : Operator → α → α → α} {least : Level} {t u : Grouping α}
  {chain rest : List (Operator × α)}

/-- The tree can be the left operand of the operator that follows, if one does. -/
def Leads (t : Grouping α) (chain : List (Operator × α)) : Prop :=
  ∀ pair ∈ chain.head?, t.AtLeast pair.1.leftLevel

/-- A climb from `t` over a part of the chain ends with `u`: nothing is lost or moved, all that was taken
binds at least as tightly as `least`, and what comes next binds less tightly. -/
structure Grows (least : Level) (t : Grouping α) (chain : List (Operator × α)) (u : Grouping α)
    (rest : List (Operator × α)) : Prop where
  ordered : u.Ordered
  bound : u.AtLeast least
  first : u.first = t.first
  taken : ∃ taken, u.pairs = t.pairs ++ taken ∧ chain = taken ++ rest
  loose : ∀ pair ∈ rest.head?, pair.1.level < least

namespace Grows

theorem stop (ordered : t.Ordered) (bound : t.AtLeast least) (loose : ∀ pair ∈ chain.head?, pair.1.level < least) :
    Grows least t chain t chain :=
  ⟨ordered, bound, rfl, ⟨[], (List.append_nil _).symm, rfl⟩, loose⟩

theorem length_le (grows : Grows least t chain u rest) : rest.length ≤ chain.length := by
  obtain ⟨taken, _, split⟩ := grows.taken
  rw [split, List.length_append]
  omega

/-- A climb passes the next operator if that binds tightly enough. -/
theorem length_lt {pair : Operator × α} (grows : Grows least t (pair :: chain) u rest)
    (tight : least ≤ pair.1.level) : rest.length ≤ chain.length := by
  obtain ⟨taken, _, split⟩ := grows.taken
  rcases taken with _ | ⟨head, taken⟩
  · have same : pair :: chain = rest := split
    have below := grows.loose pair (by simp [← same])
    exact absurd tight (Nat.not_le.mpr below)
  · obtain ⟨_, same⟩ := List.cons.inj split
    have length : chain.length = taken.length + rest.length := by rw [same, List.append_eq, List.length_append]
    omega

/-- One climb after another. -/
theorem trans {inner : Level} {v : Grouping α} {last : List (Operator × α)}
    (grows : Grows inner t chain u rest) (further : Grows least u rest v last) : Grows least t chain v last := by
  obtain ⟨taken, pairs, split⟩ := grows.taken
  obtain ⟨more, morePairs, moreSplit⟩ := further.taken
  refine ⟨further.ordered, further.bound, further.first.trans grows.first, ⟨taken ++ more, ?_, ?_⟩, further.loose⟩
  · rw [morePairs, pairs, List.append_assoc]
  · rw [split, moreSplit, List.append_assoc]

/-- What is left after the climb can follow the tree that it made. -/
theorem leads (grows : Grows least t chain u rest) : u.Leads rest := by
  intro pair member
  have loose := grows.loose pair member
  have levels := pair.1.levels
  exact grows.bound.mono (by grind)

/-- The joint of a tree with the right operand that was grown for it can follow in the same way. -/
theorem joint_leads {op : Operator} (grows : Grows op.rightLevel t chain u rest) (left : Grouping α) :
    (joint op left u).Leads rest :=
  fun pair member => Operator.leftLevel_le (grows.loose pair member)

end Grows

/-- With that much fuel a climb does what it should. -/
def Climbs (join : Operator → α → α → α) (fuel : Nat) : Prop :=
  ∀ (least : Level) (t : Grouping α) (chain : List (Operator × α)), t.Ordered → t.AtLeast least → t.Leads chain →
    2 * chain.length ≤ fuel →
      ∃ u rest, climb join fuel least (t.build join) chain = (u.build join, rest) ∧ Grows least t chain u rest

/-- So does the growth of a right operand. -/
def ClimbsRight (join : Operator → α → α → α) (fuel : Nat) : Prop :=
  ∀ (op : Operator) (t : Grouping α) (chain : List (Operator × α)), t.Ordered → t.AtLeast op.rightLevel →
    t.Leads chain → 2 * chain.length < fuel →
      ∃ u rest, climbRight join fuel op (t.build join) chain = (u.build join, rest) ∧
        Grows op.rightLevel t chain u rest

/-- One round of the climb: the right operand of the next operator grows as far as it can, and the joint of
both is where the climb goes on. -/
theorem Climbs.next {fuel : Nat} (climbs : Climbs join fuel) (climbsRight : ClimbsRight join fuel) :
    Climbs join (fuel + 1) := by
  intro least t chain ordered bound leads enough
  rcases chain with _ | ⟨⟨op, x⟩, chain⟩
  · exact ⟨t, [], by rw [climb], .stop ordered bound (by rintro _ ⟨⟩)⟩
  · by_cases tight : least ≤ op.level
    · rw [List.length_cons] at enough
      obtain ⟨right, rest, runRight, growsRight⟩ :=
        climbsRight op (.operand x) chain trivial trivial (fun _ _ => trivial) (by omega)
      have shorter := growsRight.length_le
      have joined : (joint op t right).Ordered := ⟨leads _ rfl, growsRight.bound, ordered, growsRight.ordered⟩
      obtain ⟨u, last, run, grows⟩ :=
        climbs least _ rest joined tight (growsRight.joint_leads t) (by omega)
      refine ⟨u, last, ?_, ?_⟩
      · have inner : climbRight join fuel op x chain = (right.build join, rest) := runRight
        rw [climb, if_pos tight, inner]
        exact run
      · obtain ⟨taken, pairs, split⟩ := growsRight.taken
        obtain ⟨more, morePairs, moreSplit⟩ := grows.taken
        refine ⟨grows.ordered, grows.bound, grows.first, ⟨(op, x) :: (taken ++ more), ?_, ?_⟩, grows.loose⟩
        · simp [morePairs, Grouping.pairs, pairs, growsRight.first, Grouping.first]
        · simp [split, moreSplit]
    · refine ⟨t, (op, x) :: chain, by rw [climb, if_neg tight], .stop ordered bound ?_⟩
      rintro _ ⟨⟩
      exact Nat.not_le.mp tight

/-- One round of the growth: the operators that the right operand yields to are climbed over, and it may
yield again to what comes behind them. -/
theorem ClimbsRight.next {fuel : Nat} (climbs : Climbs join fuel) (climbsRight : ClimbsRight join fuel) :
    ClimbsRight join (fuel + 1) := by
  intro op t chain ordered bound leads enough
  rcases chain with _ | ⟨⟨next, x⟩, chain⟩
  · exact ⟨t, [], by rw [climbRight], .stop ordered bound (by rintro _ ⟨⟩)⟩
  · by_cases yields : op.yieldsTo next
    · obtain ⟨above, below⟩ := Operator.floor_of_yieldsTo yields
      have levels := next.levels
      have lead : t.AtLeast next.leftLevel := leads _ rfl
      obtain ⟨u, rest, run, grows⟩ := climbs (op.floor next) t _ ordered (lead.mono (by grind)) leads
        (Nat.le_of_lt_succ enough)
      have shorter := grows.length_lt below
      rw [List.length_cons] at enough
      obtain ⟨v, last, runRight, further⟩ :=
        climbsRight op u rest grows.ordered (grows.bound.mono above) grows.leads (by omega)
      refine ⟨v, last, ?_, grows.trans further⟩
      rw [climbRight, if_pos yields, run]
      exact runRight
    · refine ⟨t, (next, x) :: chain, by rw [climbRight, if_neg yields], .stop ordered bound ?_⟩
      rintro _ ⟨⟩
      exact Operator.lt_rightLevel_of_keeps yields

theorem climbs (join : Operator → α → α → α) (fuel : Nat) : Climbs join fuel ∧ ClimbsRight join fuel := by
  induction fuel with
  | zero =>
    refine ⟨?_, ?_⟩
    · intro least t chain ordered bound leads enough
      have none : chain = [] := List.length_eq_zero_iff.mp (by omega)
      subst none
      exact ⟨t, [], by rw [climb], .stop ordered bound (by rintro _ ⟨⟩)⟩
    · intro op t chain ordered bound leads enough
      omega
  | succ fuel ih => exact ⟨Climbs.next ih.1 ih.2, ClimbsRight.next ih.1 ih.2⟩

/-- A climb from the lowest level takes the whole chain. -/
theorem climb_all (join : Operator → α → α → α) (first : α) (chain : List (Operator × α)) {fuel : Nat}
    (enough : 2 * chain.length ≤ fuel) :
    ∃ t : Grouping α, climb join fuel .lowest first chain = (t.build join, []) ∧ t.first = first ∧
      t.pairs = chain ∧ t.Ordered := by
  obtain ⟨t, rest, run, grows⟩ :=
    (climbs join fuel).1 .lowest (.operand first) chain trivial trivial
      (fun _ _ => trivial) enough
  have none : rest = [] := by
    rcases rest with _ | ⟨pair, rest⟩
    · rfl
    · have loose := grows.loose pair rfl
      exact absurd pair.1.lowest_le_level (Nat.not_le.mpr loose)
  subst none
  obtain ⟨taken, pairs, split⟩ := grows.taken
  refine ⟨t, run, grows.first, ?_, grows.ordered⟩
  rw [pairs, split, List.append_nil]
  rfl

/-- A chain is grouped as the ordered tree that reads like it. -/
theorem Ordered.group_eq (ordered : t.Ordered) (join : Operator → α → α → α) :
    group join t.first t.pairs = t.build join := by
  obtain ⟨u, run, sameFirst, same, ordered'⟩ := climb_all join t.first t.pairs (Nat.le_refl _)
  rw [group, run, ordered.unique ordered' sameFirst.symm same.symm]

end Grouping

variable {α β : Type} {join : Operator → α → α → α} {first : α} {chain : List (Operator × α)}

theorem exists_ordered (first : α) (chain : List (Operator × α)) :
    ∃ t : Grouping α, t.first = first ∧ t.pairs = chain ∧ t.Ordered := by
  obtain ⟨t, _, reads⟩ := Grouping.climb_all (fun _ left _ => left) first chain (Nat.le_refl _)
  exact ⟨t, reads⟩

theorem group_forall {P : α → Prop} {Q : Operator → Prop}
    (joins : ∀ {op left right}, Q op → P left → P right → P (join op left right)) (here : P first)
    (later : ∀ pair ∈ chain, Q pair.1 ∧ P pair.2) : P (group join first chain) := by
  obtain ⟨t, rfl, rfl, ordered⟩ := exists_ordered first chain
  rw [ordered.group_eq]
  exact Grouping.build_forall joins here later

theorem group_map {f : α → β} {join' : Operator → β → β → β}
    (through : ∀ op left right, f (join op left right) = join' op (f left) (f right)) :
    group join' (f first) (chain.map (Prod.map id f)) = f (group join first chain) := by
  obtain ⟨t, rfl, rfl, ordered⟩ := exists_ordered first chain
  rw [ordered.group_eq, ← Grouping.build_map through, ← Grouping.first_map f, ← Grouping.pairs_map f]
  exact ((Grouping.ordered_map f t).mpr ordered).group_eq join'

/-- Climbing from the lowest level takes a whole chain of infix operators and builds the only tree that has
the same operands and operators from left to right and is layered. -/
theorem climb_layered (join : Operator → α → α → α) (first : α) (chain : List (Operator × α))
    (infixed : ∀ pair ∈ chain, pair.1.arity = 2) :
    ∃ t : Grouping α,
      (∀ fuel, 2 * chain.length ≤ fuel → climb join fuel .lowest first chain = (t.build join, [])) ∧
      t.first = first ∧ t.pairs = chain ∧ t.Layered ∧
      ∀ u : Grouping α, u.first = first → u.pairs = chain → u.Layered → u = t := by
  obtain ⟨t, rfl, rfl, ordered⟩ := exists_ordered first chain
  have layered : t.Layered := (Grouping.ordered_iff_layered infixed).mp ordered
  refine ⟨t, ?_, rfl, rfl, layered, ?_⟩
  · intro fuel enough
    obtain ⟨u, run, sameFirst, same, ordered'⟩ := Grouping.climb_all join t.first t.pairs enough
    rw [run, ordered.unique ordered' sameFirst.symm same.symm]
  · intro u sameFirst same layered'
    have ordered' : u.Ordered := (Grouping.ordered_iff_layered (by rwa [same])).mpr layered'
    exact ordered'.unique ordered sameFirst same

theorem climb_layered_sum :
    let chain : List (Operator × String) := [(.plus, "b"), (.times, "c"), (.minus, "d")]
    let join op left right := "(" ++ left ++ Operator.token op ++ right ++ ")"
    (∀ pair ∈ chain, pair.1.arity = 2) ∧
      ∃ t : Grouping String,
        (∀ fuel, 2 * chain.length ≤ fuel → climb join fuel .lowest "a" chain = (t.build join, [])) ∧
        t.first = "a" ∧ t.pairs = chain ∧ t.Layered ∧
        ∀ u : Grouping String, u.first = "a" → u.pairs = chain → u.Layered → u = t := by
  intro chain join
  have infixed : ∀ pair ∈ chain, pair.1.arity = 2 := by
    simp only [chain, List.forall_mem_cons]
    exact ⟨rfl, rfl, rfl, List.forall_mem_nil _⟩
  exact ⟨infixed, climb_layered join "a" chain infixed⟩

example : climb Grouping.joint 6 .lowest (.operand 'a')
      [(.plus, .operand 'b'), (.times, .operand 'c'), (.minus, .operand 'd')] =
    (.joint .minus (.joint .plus (.operand 'a') (.joint .times (.operand 'b') (.operand 'c'))) (.operand 'd'),
      []) :=
  rfl

end LazyExpr
