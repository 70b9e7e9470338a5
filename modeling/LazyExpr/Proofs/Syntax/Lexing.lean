import Mathlib
import LazyExpr.Proofs.Syntax.Lookahead

namespace LazyExpr

/-- The lexemes of a text, blanks skipped. -/
inductive Lexes : List Char → List Lexeme → Prop
  | done : Lexes [] []
  | blank {c : Char} {cs : List Char} {ls : List Lexeme} : isBlank c → Lexes cs ls → Lexes (c :: cs) ls
  | token {cs taken rest : List Char} {lexeme : Lexeme} {ls : List Lexeme} :
      Lexeme.split? cs = some (lexeme, taken, rest) → Lexes rest ls → Lexes cs (lexeme :: ls)

/-- No token starts with a blank. -/
theorem Lexeme.split?_blank {c : Char} (blank : isBlank c) (cs : List Char) : split? (c :: cs) = none := by
  simp only [isBlank, Bool.or_eq_true, decide_eq_true_eq] at blank
  rcases blank with ((rfl | rfl) | rfl) | rfl <;> rfl

theorem Lexes.scan? {cs : List Char} {ls : List Lexeme} (lexes : Lexes cs ls) {fuel : Nat} (here : Nat)
    (enough : cs.length ≤ fuel) :
    ∃ tokens, Token.scan? fuel here cs = some tokens ∧ tokens.map (·.lexeme) = ls := by
  induction lexes generalizing fuel here with
  | done =>
    refine ⟨[], ?_, rfl⟩
    cases fuel <;> rfl
  | @blank c cs ls blank _ ih =>
    rcases fuel with _ | fuel
    · cases enough
    obtain ⟨tokens, scan, same⟩ := ih (here + c.utf8Size) (Nat.le_of_succ_le_succ enough)
    refine ⟨tokens, ?_, same⟩
    rw [Token.scan?, if_pos blank, scan]
  | @token cs taken rest lexeme ls split _ ih =>
    obtain ⟨whole, made⟩ := Lexeme.split?_made split
    have shorter : rest.length < cs.length := by
      have positive := List.length_pos_iff.mpr made.ne_nil
      rw [← whole, List.length_append]
      omega
    rcases cs with _ | ⟨c, cs⟩
    · cases split
    rcases fuel with _ | fuel
    · cases enough
    have solid : ¬ isBlank c := fun blank => by
      rw [Lexeme.split?_blank blank] at split
      cases split
    obtain ⟨tokens, scan, same⟩ :=
      ih (here + byteSize taken) (Nat.le_of_lt_succ (Nat.lt_of_lt_of_le shorter enough))
    refine ⟨⟨lexeme, here, here + byteSize taken⟩ :: tokens, ?_, by rw [List.map_cons, same]⟩
    rw [Token.scan?, if_neg solid, split]
    simp only [scan, Option.map_some]

theorem Lexes.all? {cs : List Char} {ls : List Lexeme} (lexes : Lexes cs ls) :
    ∃ tokens, Token.all? cs = some tokens ∧ tokens.map (·.lexeme) = ls :=
  lexes.scan? 0 (Nat.le_refl _)

/-- A text that continues no token which ends before it. -/
def Stands : List Char → Prop
  | [] => True
  | c :: rest => ¬ isWordPart c ∧ c ≠ '=' ∧ (c = '.' → ∀ d ∈ rest.head?, ¬ d.isDigit)

theorem Stands.head {rest : List Char} (stands : Stands rest) : ∀ c ∈ rest.head?, ¬ isWordPart c := by
  rcases rest with _ | ⟨c, rest⟩
  · nofun
  · rintro _ ⟨⟩
    exact stands.1

theorem Stands.numeral {rest : List Char} (stands : Stands rest) (digits : List Char) :
    (Lexeme.numeral digits).Ends rest := by
  refine ⟨fun c member digit => stands.head c member (isWordPart_of_digit digit), fun _ d behind same => ?_⟩
  subst same
  exact stands.2.2 rfl d rfl

namespace Lexeme

variable {rest : List Char}

theorem split?_quoted (content : String) (rest : List Char) :
    split? ((LazyExpr.quoted content).toList ++ rest) =
      some (.quoted content, (LazyExpr.quoted content).toList, rest) := by
  have decoded := Quoted.decode_encode content.toList rest
  rw [LazyExpr.quoted, String.toList_ofList]
  have first : ∃ cs, Quoted.encode content.toList = '"' :: cs := ⟨_, rfl⟩
  obtain ⟨cs, chars⟩ := first
  rw [chars] at decoded ⊢
  rw [List.cons_append] at decoded ⊢
  simp only [split?, if_neg (show ¬ isWordStart '"' by decide), if_neg (show ¬ ('"'.isDigit) by decide),
    if_pos, decoded, Option.map_some, String.ofList_toList]

theorem isWord_keyword (scope : Scope) : IsWord scope.keyword := by
  cases scope with
  | param => exact ⟨'p', "aram".toList, rfl, by decide, List.all_eq_true.mp rfl⟩
  | binding => exact ⟨'l', "ocal".toList, rfl, by decide, List.all_eq_true.mp rfl⟩
  | range => exact ⟨'r', "ange".toList, rfl, by decide, List.all_eq_true.mp rfl⟩

/-- An infix operator with blanks around it is read as what it is. -/
theorem split?_operator {op : Operator} (infixed : op.arity = 2) (rest : List Char) :
    split? (op.token.toList ++ ' ' :: rest) = some (.operator op, op.token.toList, ' ' :: rest) := by
  revert infixed
  cases op <;> intro infixed <;> first | rfl | cases infixed

end Lexeme

end LazyExpr
