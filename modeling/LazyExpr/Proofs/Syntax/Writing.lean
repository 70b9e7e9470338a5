import Mathlib.Data.List.Forall2
import LazyExpr.Proofs.Syntax.Lexing
import LazyExpr.Proofs.Syntax.Phrase

namespace LazyExpr

open Lexeme (separated access opening)

/-- A text that is not empty and does not make `!=` of an exclamation mark in front of it. -/
def Starts (text : String) : Prop := ∃ c cs, text.toList = c :: cs ∧ c ≠ '='

/-- A text has these lexemes wherever it is written, as long as nothing behind it continues its last token. -/
structure Writes (text : String) (ls : List Lexeme) : Prop where
  starts : Starts text
  lexes : ∀ {rest more}, Stands rest → Lexes rest more → Lexes (text.toList ++ rest) (ls ++ more)

theorem Starts.append {text : String} (starts : Starts text) (tail : String) : Starts (text ++ tail) := by
  obtain ⟨c, cs, chars, free⟩ := starts
  exact ⟨c, cs ++ tail.toList, by rw [String.toList_append, chars, List.cons_append], free⟩

theorem stands_mark {c : Char} (rest : List Char) (mark : isWordPart c = false ∧ c ≠ '=' ∧ c ≠ '.') :
    Stands (c :: rest) :=
  ⟨by rw [mark.1]; exact nofun, mark.2.1, fun same => absurd same mark.2.2⟩

theorem IsWord.starts {name : String} (word : IsWord name) : Starts name := by
  obtain ⟨c, cs, chars, start, _⟩ := word
  refine ⟨c, cs, chars, ?_⟩
  rintro rfl
  cases start

theorem IsWord.stands_dot {name : String} (word : IsWord name) (rest : List Char) :
    Stands ('.' :: (name.toList ++ rest)) := by
  obtain ⟨c, cs, chars, start, _⟩ := word
  refine ⟨by decide, by decide, fun _ => ?_⟩
  rw [chars]
  rintro _ ⟨⟩ digit
  exact not_isWordStart_of_digit digit start

namespace Writes

variable {text other front tail : String} {ls others : List Lexeme}

theorem all? (writes : Writes text ls) :
    ∃ tokens, Token.all? text.toList = some tokens ∧ tokens.map (·.lexeme) = ls := by
  have none : Stands [] := trivial
  have lexes := writes.lexes none .done
  rw [List.append_nil, List.append_nil] at lexes
  exact lexes.all?

/-- A single token. -/
theorem token {lexeme : Lexeme} (starts : Starts text)
    (split : ∀ {rest}, Stands rest → Lexeme.split? (text.toList ++ rest) = some (lexeme, text.toList, rest)) :
    Writes text [lexeme] where
  starts := starts
  lexes stands lexes := .token (split stands) lexes

/-- Something behind a text that continues none of its tokens. -/
theorem behind (writes : Writes text ls) (stands : ∀ {rest}, Stands rest → Stands (tail.toList ++ rest))
    (lexes : ∀ {rest more}, Stands rest → Lexes rest more → Lexes (tail.toList ++ rest) (others ++ more)) :
    Writes (text ++ tail) (ls ++ others) where
  starts := writes.starts.append tail
  lexes {rest more} standsRest lexesRest := by
    have whole := writes.lexes (stands standsRest) (lexes standsRest lexesRest)
    rw [String.toList_append, List.append_assoc, List.append_assoc]
    exact whole

/-- Something in front of a text whose own tokens end with it. -/
theorem ahead (writes : Writes text ls) (starts : Starts front)
    (lexes : ∀ {c rest more}, c ≠ '=' → Lexes (c :: rest) more →
      Lexes (front.toList ++ c :: rest) (others ++ more)) :
    Writes (front ++ text) (others ++ ls) where
  starts := starts.append text
  lexes {rest more} standsRest lexesRest := by
    obtain ⟨c, cs, chars, free⟩ := writes.starts
    have inner := writes.lexes standsRest lexesRest
    rw [String.toList_append, List.append_assoc, List.append_assoc]
    rw [chars, List.cons_append] at inner ⊢
    exact lexes free inner

theorem word {name : String} (isWord : IsWord name) : Writes name [.word name] :=
  token isWord.starts fun stands => Lexeme.split?_word isWord stands.head

theorem numeral (isNumeral : IsNumeral text.toList) : Writes text [.numeral text.toList] := by
  refine token ?_ fun stands => Lexeme.split?_numeral isNumeral (stands.numeral _)
  obtain ⟨c, cs, chars, digit⟩ := isNumeral.head
  refine ⟨c, cs, chars, ?_⟩
  rintro rfl
  cases digit

theorem quoted (content : String) : Writes (LazyExpr.quoted content) [.quoted content] := by
  refine token ⟨'"', _, String.toList_ofList, by decide⟩ fun _ => Lexeme.split?_quoted content _

theorem ref (scope : Scope) {name : String} (isWord : IsWord name) :
    Writes ("\x7b\x7b" ++ scope.keyword ++ ":" ++ name ++ "\x7d\x7d") [.ref scope.keyword name] := by
  have chars : ("\x7b\x7b" ++ scope.keyword ++ ":" ++ name ++ "\x7d\x7d").toList =
      '\x7b' :: '\x7b' :: (scope.keyword.toList ++ ':' :: (name.toList ++ ['\x7d', '\x7d'])) := by simp
  refine token ⟨_, _, chars, by decide⟩ fun {rest} _ => ?_
  have split := Lexeme.split?_ref (Lexeme.isWord_keyword scope) isWord rest
  rw [chars]
  simpa using split

/-- A closing mark behind a text. -/
theorem closed (writes : Writes text ls) {mark : String} {c : Char} {close : Lexeme} (chars : mark.toList = [c])
    (plain : isWordPart c = false ∧ c ≠ '=' ∧ c ≠ '.')
    (split : ∀ rest, Stands rest → Lexeme.split? (c :: rest) = some (close, [c], rest)) :
    Writes (text ++ mark) (ls ++ [close]) := by
  refine writes.behind (fun {rest} _ => ?_) fun stands lexes => ?_
  · rw [chars]
    exact stands_mark rest plain
  · rw [chars]
    exact .token (split _ stands) lexes

/-- An opening mark in front of a text. -/
theorem opened (writes : Writes text ls) {mark : String} {c : Char} {opens : Lexeme} (chars : mark.toList = [c])
    (plain : c ≠ '=')
    (split : ∀ d rest, d ≠ '=' → Lexeme.split? (c :: d :: rest) = some (opens, [c], d :: rest)) :
    Writes (mark ++ text) (opens :: ls) := by
  have whole : Writes (mark ++ text) ([opens] ++ ls) := by
    refine writes.ahead ⟨c, [], chars, plain⟩ fun free lexes => ?_
    rw [chars]
    exact .token (split _ _ free) lexes
  exact whole

theorem parens (writes : Writes text ls) :
    Writes ("(" ++ text ++ ")") (.openParen :: (ls ++ [.closeParen])) :=
  (writes.opened rfl (by decide) fun _ _ _ => rfl).closed rfl (by decide) fun _ _ => rfl

theorem bang (writes : Writes text ls) : Writes ("!" ++ text) (.bang :: ls) := by
  have chars : "!".toList = ['!'] := rfl
  refine writes.opened chars (by decide) fun d rest free => ?_
  have split : Lexeme.split? ('!' :: d :: rest) = Lexeme.splitMark? ('!' :: d :: rest) := rfl
  rw [split]
  simp [Lexeme.splitMark?, free]

theorem minus (writes : Writes text ls) : Writes ("-" ++ text) (.operator .minus :: ls) :=
  writes.opened rfl (by decide) fun _ _ _ => rfl

theorem assert (writes : Writes text ls) : Writes (text ++ "!") (ls ++ [.bang]) := by
  have chars : "!".toList = ['!'] := rfl
  refine writes.closed chars (by decide) fun rest stands => ?_
  have split : Lexeme.split? ('!' :: rest) = Lexeme.splitMark? ('!' :: rest) := rfl
  rw [split]
  rcases rest with _ | ⟨d, rest⟩
  · rfl
  · simp [Lexeme.splitMark?, stands.2.1]

theorem field (writes : Writes text ls) {name : String} (isWord : IsWord name) (safe : Bool) :
    Writes (text ++ (if safe then "?." else ".") ++ name) (ls ++ [access safe, .word name]) := by
  rw [String.append_assoc]
  cases safe with
  | false =>
    have chars : ((if false then "?." else ".") ++ name).toList = '.' :: name.toList := String.toList_append
    refine writes.behind (fun {rest} _ => ?_) fun stands lexes => ?_
    · rw [chars]
      exact isWord.stands_dot rest
    · rw [chars]
      exact .token rfl ((word isWord).lexes stands lexes)
  | true =>
    have chars : ((if true then "?." else ".") ++ name).toList = '?' :: '.' :: name.toList := String.toList_append
    refine writes.behind (fun {rest} _ => ?_) fun stands lexes => ?_
    · rw [chars]
      exact stands_mark _ (by decide)
    · rw [chars]
      exact .token rfl ((word isWord).lexes stands lexes)

theorem index {key : String} {ks : List Lexeme} (writes : Writes text ls) (writesKey : Writes key ks)
    (safe : Bool) :
    Writes (text ++ (if safe then "?[" else "[") ++ key ++ "]")
      (ls ++ (opening safe ++ (ks ++ [.closeBracket]))) := by
  have closedKey : Writes (key ++ "]") (ks ++ [.closeBracket]) :=
    writesKey.closed rfl (by decide) fun _ _ => rfl
  rw [String.append_assoc, String.append_assoc]
  cases safe with
  | false =>
    have chars : ((if false then "?[" else "[") ++ (key ++ "]")).toList = '[' :: (key ++ "]").toList :=
      String.toList_append
    refine writes.behind (fun {rest} _ => ?_) fun stands lexes => ?_
    · rw [chars]
      exact stands_mark _ (by decide)
    · rw [chars]
      exact .token rfl (closedKey.lexes stands lexes)
  | true =>
    have chars : ((if true then "?[" else "[") ++ (key ++ "]")).toList = '?' :: '[' :: (key ++ "]").toList :=
      String.toList_append
    refine writes.behind (fun {rest} _ => ?_) fun stands lexes => ?_
    · rw [chars]
      exact stands_mark _ (by decide)
    · rw [chars]
      exact .token rfl (.token rfl (closedKey.lexes stands lexes))

/-- An operator with blanks around it and its right operand. -/
theorem infixed (writes : Writes text ls) (writesOther : Writes other others) {op : Operator}
    (infixed : op.arity = 2) :
    Writes (text ++ " " ++ op.token ++ " " ++ other) (ls ++ .operator op :: others) := by
  have chars : (" " ++ (op.token ++ (" " ++ other))).toList = ' ' :: (op.token.toList ++ ' ' :: other.toList) := by
    simp
  rw [String.append_assoc, String.append_assoc, String.append_assoc]
  refine writes.behind (fun {rest} _ => ?_) fun {rest more} stands lexes => ?_
  · rw [chars]
    exact stands_mark _ (by decide)
  · have right : Lexes (' ' :: (other.toList ++ rest)) (others ++ more) :=
      .blank rfl (writesOther.lexes stands lexes)
    rw [chars, List.cons_append, List.append_assoc]
    exact .blank rfl (.token (Lexeme.split?_operator infixed _) right)

/-- A mark with blanks around it and what follows it. -/
theorem spaced (writes : Writes text ls) (writesOther : Writes other others) {mark : String} {c : Char}
    {lexeme : Lexeme} (chars : mark.toList = [' ', c, ' '])
    (split : ∀ rest, Lexeme.split? (c :: ' ' :: rest) = some (lexeme, [c], ' ' :: rest)) :
    Writes (text ++ mark ++ other) (ls ++ lexeme :: others) := by
  rw [String.append_assoc]
  refine writes.behind (fun {rest} _ => ?_) fun {rest more} stands lexes => ?_
  · rw [String.toList_append, chars]
    exact stands_mark _ (by decide)
  · have right : Lexes (' ' :: (other.toList ++ rest)) (others ++ more) :=
      .blank rfl (writesOther.lexes stands lexes)
    rw [String.toList_append, chars]
    exact .blank rfl (.token (split _) right)

theorem choice {yes no : String} {ys ns : List Lexeme} (writes : Writes text ls) (writesYes : Writes yes ys)
    (writesNo : Writes no ns) :
    Writes (text ++ " ? " ++ yes ++ " : " ++ no) (ls ++ .question false :: (ys ++ .colon :: ns)) := by
  have front : Writes (text ++ " ? " ++ yes) (ls ++ .question false :: ys) :=
    writes.spaced writesYes rfl fun _ => rfl
  have whole : Writes (text ++ " ? " ++ yes ++ " : " ++ no) ((ls ++ .question false :: ys) ++ .colon :: ns) :=
    front.spaced writesNo rfl fun _ => rfl
  rw [List.append_assoc] at whole
  exact whole

theorem comma (writes : Writes text ls) (writesOther : Writes other others) :
    Writes (text ++ ", " ++ other) (ls ++ .comma :: others) := by
  rw [String.append_assoc]
  refine writes.behind (fun {rest} _ => ?_) fun {rest more} stands lexes => ?_
  · rw [String.toList_append]
    exact stands_mark _ (by decide)
  · rw [String.toList_append]
    exact .token rfl (.blank rfl (writesOther.lexes stands lexes))

theorem commas {texts : List String} {items : List (List Lexeme)} (writes : Writes text ls)
    (each : List.Forall₂ Writes texts items) :
    Writes (String.intercalate ", " (text :: texts)) (separated (ls :: items)) := by
  induction each generalizing text ls with
  | nil =>
    rw [String.intercalate_singleton, separated, List.flatMap_nil, List.append_nil]
    exact writes
  | cons first _ ih =>
    rw [String.intercalate_cons_cons]
    exact writes.comma (ih first)

/-- Items with commas between them inside a pair of marks. There may be none. -/
theorem enclosed {texts : List String} {items : List (List Lexeme)} (each : List.Forall₂ Writes texts items)
    {front back : String} {o c : Char} {opens close : Lexeme} (frontChars : front.toList = [o])
    (backChars : back.toList = [c]) (plain : o ≠ '=' ∧ isWordPart c = false ∧ c ≠ '=' ∧ c ≠ '.')
    (splitOpen : ∀ rest, Lexeme.split? (o :: rest) = some (opens, [o], rest))
    (splitClose : ∀ rest, Lexeme.split? (c :: rest) = some (close, [c], rest)) :
    Writes (front ++ String.intercalate ", " texts ++ back) (opens :: (separated items ++ [close])) := by
  cases each with
  | nil =>
    have chars : (front ++ String.intercalate ", " [] ++ back).toList = [o, c] := by
      rw [String.intercalate_nil, String.append_empty, String.toList_append, frontChars, backChars]
      rfl
    refine ⟨⟨o, [c], chars, plain.1⟩, fun stands lexes => ?_⟩
    rw [chars]
    exact .token (splitOpen _) (.token (splitClose _) lexes)
  | cons first others =>
    exact ((first.commas others).opened frontChars plain.1 fun _ _ _ => splitOpen _).closed backChars plain.2
      fun _ _ => splitClose _

theorem list {texts : List String} {items : List (List Lexeme)} (each : List.Forall₂ Writes texts items) :
    Writes ("[" ++ String.intercalate ", " texts ++ "]") (.openBracket :: (separated items ++ [.closeBracket])) :=
  enclosed each rfl rfl (by decide) (fun _ => rfl) fun _ => rfl

theorem call {texts : List String} {items : List (List Lexeme)} {name : String} (isWord : IsWord name)
    (each : List.Forall₂ Writes texts items) :
    Writes (name ++ "(" ++ String.intercalate ", " texts ++ ")")
      (.word name :: .openParen :: (separated items ++ [.closeParen])) := by
  have args : Writes ("(" ++ String.intercalate ", " texts ++ ")")
      (.openParen :: (separated items ++ [.closeParen])) :=
    enclosed each rfl rfl (by decide) (fun _ => rfl) fun _ => rfl
  have whole : Writes (name ++ ("(" ++ String.intercalate ", " texts ++ ")"))
      ([.word name] ++ .openParen :: (separated items ++ [.closeParen])) := by
    refine (word isWord).behind (fun {rest} _ => ?_) args.lexes
    rw [String.append_assoc, String.toList_append]
    exact stands_mark _ (by decide)
  simp only [String.append_assoc] at whole ⊢
  exact whole

end Writes

end LazyExpr
