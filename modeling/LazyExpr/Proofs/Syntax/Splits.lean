import Mathlib.Data.List.TakeWhile
import LazyExpr.Proofs.Syntax.Escapes
import LazyExpr.Syntax.Token

namespace LazyExpr

/-- The identifiers of the language. -/
def IsWord (name : String) : Prop :=
  ∃ c cs, name.toList = c :: cs ∧ isWordStart c ∧ ∀ d ∈ cs, isWordPart d

theorem isWordPart_of_start {c : Char} (start : isWordStart c) : isWordPart c := by
  unfold isWordStart at start
  unfold isWordPart
  rw [Bool.or_eq_true] at start ⊢
  rcases start with alpha | bar
  · exact .inl (by rw [Char.isAlphanum, alpha, Bool.true_or])
  · exact .inr bar

theorem IsWord.all {name : String} (word : IsWord name) : ∀ d ∈ name.toList, isWordPart d := by
  obtain ⟨c, cs, chars, start, parts⟩ := word
  rw [chars]
  exact List.forall_mem_cons.mpr ⟨isWordPart_of_start start, parts⟩

theorem IsWord.ne_nil {name : String} (word : IsWord name) : name.toList ≠ [] := by
  obtain ⟨c, cs, chars, _⟩ := word
  rw [chars]
  exact List.cons_ne_nil c cs

/-- What a word part splits off at the first letter is an identifier. -/
theorem isWord_splitWord {c : Char} {cs : List Char} (start : isWordStart c) :
    IsWord (String.ofList (splitWord (c :: cs)).1) := by
  refine ⟨c, cs.takeWhile isWordPart, ?_, start, fun d member => List.mem_takeWhile_imp member⟩
  rw [String.toList_ofList, splitWord, List.takeWhile_cons, if_pos (isWordPart_of_start start)]

theorem splitWord_splits (cs : List Char) : (splitWord cs).1 ++ (splitWord cs).2 = cs :=
  List.takeWhile_append_dropWhile

theorem Numeral.split_ne_nil {c : Char} {cs : List Char} (digit : c.isDigit) :
    (Numeral.split (c :: cs)).1 ≠ [] := by
  unfold Numeral.split
  dsimp only
  rw [List.takeWhile_cons, if_pos digit]
  split
  · split <;> exact nofun
  · exact nofun

theorem Numeral.split_splits (cs : List Char) : (Numeral.split cs).1 ++ (Numeral.split cs).2 = cs := by
  have whole := List.takeWhile_append_dropWhile (p := Char.isDigit) (l := cs)
  unfold Numeral.split
  dsimp only
  split
  · rename_i d rest point
    split
    · rw [List.append_assoc, List.cons_append, List.takeWhile_append_dropWhile, ← point, whole]
    · rw [← point, whole]
  · exact whole

namespace Lexeme

/-- Operators that stand between operands, and marks. -/
def IsMark : Lexeme → Prop
  | operator op => op.arity = 2
  | word _ | numeral _ | quoted _ | ref _ _ => False
  | _ => True

/-- The characters that a lexeme of a text is made of. -/
inductive MadeOf : Lexeme → List Char → Prop
  | word {name} : IsWord name → MadeOf (word name) name.toList
  | numeral {digits} : digits ≠ [] → MadeOf (numeral digits) digits
  | quoted {content taken} : taken ≠ [] → MadeOf (quoted content) taken
  | ref {scope name} : IsWord scope → IsWord name → MadeOf (ref scope name)
      ('\x7b' :: '\x7b' :: scope.toList ++ ':' :: name.toList ++ ['\x7d', '\x7d'])
  | mark {lexeme taken} : lexeme.IsMark → taken ≠ [] → MadeOf lexeme taken

variable {cs taken rest : List Char} {lexeme : Lexeme}

theorem MadeOf.ne_nil (made : MadeOf lexeme taken) : taken ≠ [] := by
  cases made with
  | word name => exact name.ne_nil
  | numeral some | quoted some | mark _ some => exact some
  | ref => exact List.cons_ne_nil _ _

theorem splitRef?_ref (split : splitRef? cs = some (lexeme, taken, rest)) :
    taken ++ rest = cs ∧ ∃ scope name, IsWord scope ∧ IsWord name ∧ lexeme = ref scope name ∧
      taken = '\x7b' :: '\x7b' :: scope.toList ++ ':' :: name.toList ++ ['\x7d', '\x7d'] := by
  unfold splitRef? at split
  split at split
  · rename_i s behind
    have scopeChars := splitWord_splits (s :: behind)
    dsimp only at split
    split at split
    · rename_i n after colon
      have nameChars := splitWord_splits (n :: after)
      split at split
      · rename_i tail braces
        split at split
        · rename_i starts
          cases split
          have starts := Bool.and_eq_true_iff.mp starts
          have scope := @isWord_splitWord s behind starts.1
          have name := @isWord_splitWord n after starts.2
          rw [colon, ← nameChars, braces] at scopeChars
          refine ⟨by simpa using scopeChars, _, _, scope, name, rfl, ?_⟩
          rw [String.toList_ofList, String.toList_ofList]
        · cases split
      · cases split
    · cases split
  · cases split

theorem splitRef?_made (split : splitRef? cs = some (lexeme, taken, rest)) :
    taken ++ rest = cs ∧ MadeOf lexeme taken := by
  obtain ⟨whole, scope, name, isScope, isName, rfl, rfl⟩ := splitRef?_ref split
  exact ⟨whole, .ref isScope isName⟩

theorem splitMark?_made (split : splitMark? cs = some (lexeme, taken, rest)) :
    taken ++ rest = cs ∧ MadeOf lexeme taken := by
  unfold splitMark? at split
  split at split <;> cases split <;> exact ⟨rfl, .mark (by trivial) (List.cons_ne_nil _ _)⟩

/-- The characters of the first token and the rest are the text. -/
theorem split?_made (split : split? cs = some (lexeme, taken, rest)) :
    taken ++ rest = cs ∧ MadeOf lexeme taken := by
  cases cs with
  | nil => cases split
  | cons c cs =>
    unfold split? at split
    dsimp only at split
    split at split
    · rename_i start
      cases split
      have made := MadeOf.word (@isWord_splitWord c cs start)
      rw [String.toList_ofList] at made
      exact ⟨splitWord_splits _, made⟩
    · split at split
      · rename_i digit
        cases split
        exact ⟨Numeral.split_splits _, .numeral (Numeral.split_ne_nil digit)⟩
      · split at split
        · obtain ⟨⟨content, taken, rest⟩, decoded, same⟩ := Option.map_eq_some_iff.mp split
          cases same
          obtain ⟨whole, some⟩ := Quoted.decode_splits decoded
          exact ⟨whole, .quoted some⟩
        · split at split
          · exact splitRef?_made split
          · exact splitMark?_made split

end Lexeme

end LazyExpr
