import LazyExpr.Proofs.Syntax.Phrase

namespace LazyExpr

namespace Lexeme

/-- How many parentheses are open behind a lexeme, by how many are open in front of it. One that is not open cannot
be closed. -/
def nest (depth : Nat) : Lexeme → Option Nat
  | openParen => some (depth + 1)
  | closeParen => if depth = 0 then none else some (depth - 1)
  | _ => some depth

/-- How many are open behind all of the lexemes. -/
def nested? (depth : Nat) (ls : List Lexeme) : Option Nat := ls.foldlM nest depth

/-- Each parenthesis that is opened is closed behind that, and no other one is closed. -/
def Balanced (ls : List Lexeme) : Prop := nested? 0 ls = some 0

instance (ls : List Lexeme) : Decidable (Balanced ls) := inferInstanceAs (Decidable (_ = _))

variable {lexeme : Lexeme} {ls ks : List Lexeme} {depth last : Nat}

theorem nested?_cons : nested? depth (lexeme :: ls) = some last ↔
    ∃ mid, nest depth lexeme = some mid ∧ nested? mid ls = some last := by
  rw [nested?, List.foldlM_cons]
  exact Option.bind_eq_some_iff

theorem nested?_append : nested? depth (ls ++ ks) = some last ↔
    ∃ mid, nested? depth ls = some mid ∧ nested? mid ks = some last := by
  rw [nested?, List.foldlM_append]
  exact Option.bind_eq_some_iff

/-- More open parentheses around the lexemes stay open. -/
theorem nested?_add (nested : nested? depth ls = some last) (more : Nat) :
    nested? (depth + more) ls = some (last + more) := by
  induction ls generalizing depth with
  | nil =>
    cases nested
    rfl
  | cons lexeme ls ih =>
    obtain ⟨mid, here, behind⟩ := nested?_cons.mp nested
    refine nested?_cons.mpr ⟨mid + more, ?_, ih behind⟩
    cases lexeme with
    | openParen =>
      cases here
      exact congrArg some (Nat.add_right_comm _ _ _)
    | closeParen =>
      rcases depth with _ | depth
      · cases here
      · cases here
        rw [nest, if_neg (by omega)]
        exact congrArg some (by omega)
    | _ =>
      cases here
      rfl

theorem nested?_opens {opens : List Lexeme} (marks : ∀ lexeme ∈ opens, lexeme = openParen) :
    nested? depth opens = some (depth + opens.length) := by
  induction opens generalizing depth with
  | nil => rfl
  | cons lexeme opens ih =>
    obtain ⟨rfl, others⟩ := List.forall_mem_cons.mp marks
    refine nested?_cons.mpr ⟨depth + 1, rfl, ?_⟩
    rw [ih others, List.length_cons]
    exact congrArg some (by omega)

namespace Balanced

theorem nested? (balanced : Balanced ls) (depth : Nat) : nested? depth ls = some depth := by
  have within := nested?_add balanced depth
  rwa [Nat.zero_add] at within

theorem append (first : Balanced ls) (second : Balanced ks) : Balanced (ls ++ ks) :=
  nested?_append.mpr ⟨0, first, second⟩

theorem behind (whole : Balanced (ls ++ ks)) (first : Balanced ls) : Balanced ks := by
  obtain ⟨mid, here, behind⟩ := nested?_append.mp whole
  cases Option.some.inj (here.symm.trans first)
  exact behind

/-- A lexeme that is no parenthesis does not count. -/
theorem cons (plain : nest 0 lexeme = some 0) (balanced : Balanced ls) : Balanced (lexeme :: ls) :=
  nested?_cons.mpr ⟨0, plain, balanced⟩

theorem enclosed (balanced : Balanced ls) : Balanced (openParen :: (ls ++ [closeParen])) :=
  nested?_cons.mpr ⟨1, rfl, nested?_append.mpr ⟨1, balanced.nested? 1, rfl⟩⟩

theorem separated {items : List (List Lexeme)} (each : ∀ item ∈ items, Balanced item) :
    Balanced (separated items) := by
  rcases items with _ | ⟨item, items⟩
  · rfl
  · obtain ⟨first, others⟩ := List.forall_mem_cons.mp each
    refine first.append ?_
    clear each
    induction items with
    | nil => rfl
    | cons next items ih =>
      obtain ⟨here, others⟩ := List.forall_mem_cons.mp others
      exact (here.append (ih others)).cons rfl

/-- If the lexemes in front of some others are balanced together with parentheses that are open already, none is. -/
theorem opens_eq_nil {opens : List Lexeme} (marks : ∀ lexeme ∈ opens, lexeme = openParen)
    (closed : Balanced (opens ++ ls)) (balanced : Balanced (ls ++ ks)) : opens = [] := by
  obtain ⟨mid, front, _⟩ := nested?_append.mp balanced
  obtain ⟨_, opened, inside⟩ := nested?_append.mp closed
  cases Option.some.inj (opened.symm.trans (nested?_opens marks))
  have none : mid + opens.length = 0 := Option.some.inj ((nested?_add front opens.length).symm.trans inside)
  exact List.length_eq_zero_iff.mp (Nat.eq_zero_of_add_eq_zero_left none)

theorem closes_eq_nil {closes : List Lexeme} (marks : ∀ lexeme ∈ closes, lexeme = closeParen)
    (closed : Balanced (ls ++ closes)) (balanced : Balanced ls) : closes = [] := by
  have rest := closed.behind balanced
  rcases closes with _ | ⟨lexeme, closes⟩
  · rfl
  · obtain rfl := marks lexeme List.mem_cons_self
    cases rest

end Balanced

end Lexeme

open Lexeme (Balanced)

/-- The parentheses of a phrase are balanced. -/
theorem Phrase.balanced {rank : Rank} {ls : List Lexeme} {e : Expr} (phrase : Phrase rank ls e) : Balanced ls := by
  have items {items : List (List Lexeme × Expr)} (each : ∀ item ∈ items, Balanced item.1) :
      Balanced (Lexeme.separated (items.map (·.1))) :=
    .separated fun ls member => by
      obtain ⟨item, among, rfl⟩ := List.mem_map.mp member
      exact each item among
  have bracket {ls : List Lexeme} (balanced : Balanced ls) : Balanced (ls ++ [.closeBracket]) := balanced.append rfl
  induction phrase with
  | null | undefined | bool | numeral | quoted | ref => rfl
  | list _ ih => exact (bracket (items ih)).cons rfl
  | call _ _ ih => exact (items ih).enclosed.cons rfl
  | parens _ ih => exact ih.enclosed
  | ofPrimary _ ih | ofMember _ ih | ofOperand _ _ ih | ofChain _ ih => exact ih
  | field name safe _ ih => exact ih.append (by cases safe <;> rfl)
  | index safe _ _ ih ihKey =>
    have opening : Balanced (Lexeme.opening safe) := by cases safe <;> rfl
    exact ih.append (opening.append (bracket ihKey))
  | assert _ ih => exact ih.append rfl
  | not _ ih | negate _ ih => exact ih.cons rfl
  | binary _ _ _ _ ih ihRight => exact ih.append (ihRight.cons rfl)
  | choose _ _ _ _ ih ihYes ihNo => exact ih.append ((ihYes.append (ihNo.cons rfl)).cons rfl)

end LazyExpr
