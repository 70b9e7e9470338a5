import Mathlib
import LazyExpr.Proofs.Number.Digits
import LazyExpr.Proofs.Syntax.Splits

namespace LazyExpr

theorem not_isWordStart_of_digit {c : Char} (digit : c.isDigit) : ¬ isWordStart c := by
  simp only [isWordStart, Char.isAlpha, Char.isUpper, Char.isLower, Char.isDigit, Bool.and_eq_true,
    decide_eq_true_eq, Bool.or_eq_true, UInt32.le_iff_toNat_le] at digit ⊢
  rintro ((upper | lower) | rfl)
  · have bounds : 65 ≤ c.val.toNat ∧ 48 ≤ c.val.toNat ∧ c.val.toNat ≤ 57 := ⟨upper.1, digit.1, digit.2⟩
    omega
  · have bounds : 97 ≤ c.val.toNat ∧ 48 ≤ c.val.toNat ∧ c.val.toNat ≤ 57 := ⟨lower.1, digit.1, digit.2⟩
    omega
  · exact absurd digit.2 (by decide)

theorem isWordPart_of_digit {c : Char} (digit : c.isDigit) : isWordPart c := by
  simp only [isWordPart, Char.isAlphanum, digit, Bool.or_true, Bool.true_or]

/-- A run of characters of one kind is split off where the kind ends. -/
theorem takeWhile_run {kind : Char → Bool} {cs rest : List Char} (run : ∀ c ∈ cs, kind c)
    (ends : ∀ c ∈ rest.head?, ¬ kind c) :
    (cs ++ rest).takeWhile kind = cs ∧ (cs ++ rest).dropWhile kind = rest := by
  have stop : rest.takeWhile kind = [] ∧ rest.dropWhile kind = rest := by
    rcases rest with _ | ⟨c, rest⟩
    · exact ⟨rfl, rfl⟩
    · have other := ends c rfl
      exact ⟨by rw [List.takeWhile_cons, if_neg other], by rw [List.dropWhile_cons, if_neg other]⟩
  rw [List.takeWhile_append_of_pos run, List.dropWhile_append_of_pos run, stop.1, stop.2, List.append_nil]
  exact ⟨rfl, rfl⟩

theorem not_head_dropWhile (kind : Char → Bool) (cs : List Char) : ∀ c ∈ (cs.dropWhile kind).head?, ¬ kind c := by
  intro c first holds
  have other := List.head?_dropWhile_not kind cs
  rw [Option.mem_def.mp first] at other
  exact Bool.false_ne_true (other.symm.trans holds)

/-- With this character behind it a mark would be part of a longer one. -/
def Lexeme.grows : Lexeme → Char → Bool
  | question _, c => c = '?' || c = '.' || c = '['
  | operator .bitOr, c => c = '|'
  | operator .bitAnd, c => c = '&'
  | bang, c => c = '='
  | operator .less, c => c = '=' || c = '<'
  | operator .greater, c => c = '=' || c = '>'
  | _, _ => false

/-- The characters of a mark. -/
def Lexeme.mark : Lexeme → List Char
  | operator op => op.token.toList
  | bang => ['!']
  | question _ => ['?']
  | safeDot => ['?', '.']
  | dot => ['.']
  | comma => [',']
  | colon => [':']
  | openParen => ['(']
  | closeParen => [')']
  | openBracket => ['[']
  | closeBracket => [']']
  | _ => []

/-- What stands behind a token leaves it the token that it is. -/
def Lexeme.Ends : Lexeme → List Char → Prop
  | word _, rest => ∀ c ∈ rest.head?, ¬ isWordPart c
  | numeral digits, rest => (∀ c ∈ rest.head?, ¬ c.isDigit) ∧
      ('.' ∉ digits → ∀ d behind, rest = '.' :: d :: behind → ¬ d.isDigit)
  | quoted _, _ | ref _ _, _ => True
  | question true, rest => rest.head? = some '['
  | mark, rest => ∀ c ∈ rest.head?, ¬ mark.grows c

theorem IsNumeral.head {cs : List Char} (numeral : IsNumeral cs) : ∃ c rest, cs = c :: rest ∧ c.isDigit := by
  cases numeral with
  | whole some all =>
    rcases cs with _ | ⟨c, rest⟩
    · exact absurd rfl some
    · exact ⟨c, rest, rfl, all c List.mem_cons_self⟩
  | @pointed digits places some all =>
    rcases digits with _ | ⟨c, rest⟩
    · exact absurd rfl some
    · exact ⟨c, _, rfl, all c List.mem_cons_self⟩

theorem not_mem_point {digits : List Char} (all : ∀ c ∈ digits, c.isDigit) : '.' ∉ digits :=
  fun member => digit_ne_point (all '.' member) rfl

theorem IsNumeral.split {cs rest : List Char} (numeral : IsNumeral cs) (ends : (Lexeme.numeral cs).Ends rest) :
    Numeral.split (cs ++ rest) = (cs, rest) := by
  cases numeral with
  | whole _ digits =>
    have run := takeWhile_run digits ends.1
    simp only [Numeral.split, run.1, run.2]
    split
    · rename_i d behind
      rw [if_neg (ends.2 (not_mem_point digits) d behind rfl)]
    · rfl
  | @pointed digits places _ whole some tail =>
    have point : ∀ c ∈ ('.' :: (places ++ rest)).head?, ¬ c.isDigit := by
      rintro _ ⟨⟩
      decide
    have run := takeWhile_run whole point
    have runPlaces := takeWhile_run tail ends.1
    rw [List.append_assoc, List.cons_append]
    simp only [Numeral.split, run.1, run.2]
    rcases places with _ | ⟨d, places⟩
    · exact absurd rfl some
    · have first : d.isDigit := tail d List.mem_cons_self
      simp only [List.cons_append, if_pos first]
      rw [← List.cons_append, runPlaces.1, runPlaces.2]

/-- What is split off at a digit is a numeral, and all of one. -/
theorem Numeral.split_ends {c : Char} {cs : List Char} (digit : c.isDigit) :
    IsNumeral (split (c :: cs)).1 ∧ (Lexeme.numeral (split (c :: cs)).1).Ends (split (c :: cs)).2 := by
  have whole : (c :: cs).takeWhile Char.isDigit ≠ [] := by
    rw [List.takeWhile_cons, if_pos digit]
    exact List.cons_ne_nil _ _
  have digits : ∀ d ∈ (c :: cs).takeWhile Char.isDigit, d.isDigit := fun d member => List.mem_takeWhile_imp member
  have next := not_head_dropWhile Char.isDigit (c :: cs)
  unfold split
  dsimp only
  split
  · rename_i d rest point
    split
    · rename_i first
      refine ⟨.pointed whole digits ?_ fun d member => List.mem_takeWhile_imp member,
        not_head_dropWhile Char.isDigit _, fun absent => absurd ?_ absent⟩
      · rw [List.takeWhile_cons, if_pos first]
        exact List.cons_ne_nil _ _
      · exact List.mem_append_right _ List.mem_cons_self
    · rename_i other
      rw [point] at next
      refine ⟨.whole whole digits, next, ?_⟩
      rintro _ _ _ ⟨⟩
      exact other
  · rename_i unpointed
    exact ⟨.whole whole digits, next, fun _ d behind same => absurd same (unpointed d behind)⟩

namespace Lexeme

variable {cs taken rest rest' : List Char} {lexeme : Lexeme}

theorem split?_word {name : String} (word : IsWord name) (ends : (Lexeme.word name).Ends rest) :
    split? (name.toList ++ rest) = some (.word name, name.toList, rest) := by
  have run := takeWhile_run word.all ends
  have text : String.ofList name.toList = name := String.ofList_toList
  obtain ⟨c, cs, chars, start, _⟩ := word
  rw [chars] at run text ⊢
  rw [List.cons_append] at run ⊢
  simp only [split?, if_pos start, splitWord, run.1, run.2, text]

theorem split?_numeral {digits : List Char} (numeral : IsNumeral digits)
    (ends : (Lexeme.numeral digits).Ends rest) :
    split? (digits ++ rest) = some (.numeral digits, digits, rest) := by
  have split := numeral.split ends
  obtain ⟨c, cs, rfl, digit⟩ := numeral.head
  rw [List.cons_append] at split ⊢
  simp only [split?, if_neg (not_isWordStart_of_digit digit), if_pos digit, split]

theorem splitWord_word {name : String} (word : IsWord name) {c : Char} (mark : ¬ isWordPart c)
    (rest : List Char) : splitWord (name.toList ++ c :: rest) = (name.toList, c :: rest) := by
  have ends : ∀ d ∈ (c :: rest).head?, ¬ isWordPart d := by
    rintro _ ⟨⟩
    exact mark
  have run := takeWhile_run word.all ends
  rw [splitWord, run.1, run.2]

theorem split?_ref {scope name : String} (scopeWord : IsWord scope) (word : IsWord name) (rest : List Char) :
    split? ('\x7b' :: '\x7b' :: (scope.toList ++ ':' :: (name.toList ++ '\x7d' :: '\x7d' :: rest))) =
      some (.ref scope name,
        '\x7b' :: '\x7b' :: (scope.toList ++ ':' :: (name.toList ++ ['\x7d', '\x7d'])), rest) := by
  have runScope := splitWord_word scopeWord (show ¬ isWordPart ':' by decide)
    (name.toList ++ '\x7d' :: '\x7d' :: rest)
  have runName := splitWord_word word (show ¬ isWordPart '\x7d' by decide) ('\x7d' :: rest)
  have scopeText : String.ofList scope.toList = scope := String.ofList_toList
  have nameText : String.ofList name.toList = name := String.ofList_toList
  obtain ⟨s, ss, scopeChars, scopeStart, _⟩ := scopeWord
  obtain ⟨n, ns, nameChars, start, _⟩ := word
  rw [scopeChars] at runScope scopeText ⊢
  rw [nameChars] at runScope runName nameText ⊢
  simp only [List.cons_append] at runScope runName ⊢
  have brace : ∀ cs, split? ('\x7b' :: cs) = splitRef? ('\x7b' :: cs) := fun _ => rfl
  rw [brace]
  simp only [splitRef?, runScope, List.cons_append, runName, scopeStart, start, Bool.and_self, ↓reduceIte,
    scopeText, nameText, List.append_assoc]

theorem splitMark?_letters (split : splitMark? cs = some (lexeme, taken, rest)) :
    lexeme.IsMark ∧ taken = lexeme.mark ∧ lexeme.Ends rest := by
  have made : lexeme.IsMark ∧ taken = lexeme.mark := by
    unfold splitMark? at split
    split at split <;> cases split <;> exact ⟨by trivial, rfl⟩
  refine ⟨made.1, made.2, ?_⟩
  unfold splitMark? at split
  split at split <;> cases split <;> first
    | rfl
    | rcases rest with _ | ⟨c, behind⟩ <;> simp_all [Ends, grows]

theorem splitMark?_mark (isMark : lexeme.IsMark) (ends : lexeme.Ends rest) :
    splitMark? (lexeme.mark ++ rest) = some (lexeme, lexeme.mark, rest) := by
  cases lexeme with
  | word | numeral | quoted | ref => cases isMark
  | operator op =>
    cases op <;> first
      | rfl
      | cases isMark; done
      | rcases rest with _ | ⟨c, behind⟩
        · rfl
        · simp_all [Ends, grows, mark, Operator.token, splitMark?]
  | question glued =>
    cases glued <;> rcases rest with _ | ⟨c, behind⟩ <;> simp_all [Ends, grows, mark, splitMark?]
  | bang => rcases rest with _ | ⟨c, behind⟩ <;> simp_all [Ends, grows, mark, splitMark?]
  | _ => rfl

/-- A mark begins with none of the characters that other tokens begin with. -/
theorem split?_mark (isMark : lexeme.IsMark) (rest : List Char) :
    split? (lexeme.mark ++ rest) = splitMark? (lexeme.mark ++ rest) := by
  cases lexeme with
  | word | numeral | quoted | ref => cases isMark
  | operator op => cases op <;> rfl
  | _ => rfl

/-- The characters of a lexeme, all of them. -/
inductive Letters : Lexeme → List Char → Prop
  | word {name : String} : IsWord name → Letters (word name) name.toList
  | numeral {digits : List Char} : IsNumeral digits → Letters (numeral digits) digits
  | quoted {content taken : List Char} : Quoted.decode taken = some (content, taken, []) →
      Letters (quoted (String.ofList content)) taken
  | ref {scope name : String} : IsWord scope → IsWord name → Letters (ref scope name)
      ('\x7b' :: '\x7b' :: (scope.toList ++ ':' :: (name.toList ++ ['\x7d', '\x7d'])))
  | mark {lexeme : Lexeme} : lexeme.IsMark → Letters lexeme lexeme.mark

theorem split?_of_letters (letters : lexeme.Letters taken) (ends : lexeme.Ends rest) :
    split? (taken ++ rest) = some (lexeme, taken, rest) := by
  cases letters with
  | word isWord => exact split?_word isWord ends
  | numeral isNumeral => exact split?_numeral isNumeral ends
  | @quoted content taken decoded =>
    have again := Quoted.decode_rest decoded rest
    obtain ⟨more, rfl⟩ : ∃ more, taken = '"' :: more := Quoted.decode_quote decoded
    rw [List.cons_append] at again ⊢
    simp only [split?, if_neg (show ¬ isWordStart '"' by decide), if_neg (show ¬ ('"'.isDigit) by decide),
      if_pos, again, Option.map_some]
  | @ref scope name isScope isName => simpa using split?_ref isScope isName rest
  | mark isMark => exact (split?_mark isMark rest).trans (splitMark?_mark isMark ends)

theorem letters_of_split? (split : split? cs = some (lexeme, taken, rest)) :
    lexeme.Letters taken ∧ lexeme.Ends rest := by
  cases cs with
  | nil => cases split
  | cons c cs =>
    unfold split? at split
    dsimp only at split
    split at split
    · rename_i start
      have letters := Letters.word (@isWord_splitWord c cs start)
      rw [String.toList_ofList] at letters
      cases split
      exact ⟨letters, not_head_dropWhile isWordPart (c :: cs)⟩
    · split at split
      · rename_i digit
        cases split
        obtain ⟨numeral, ends⟩ := @Numeral.split_ends c cs digit
        exact ⟨.numeral numeral, ends⟩
      · split at split
        · obtain ⟨⟨content, taken, after⟩, decoded, same⟩ := Option.map_eq_some_iff.mp split
          cases same
          have again := Quoted.decode_rest decoded []
          rw [List.append_nil] at again
          exact ⟨.quoted again, trivial⟩
        · split at split
          · obtain ⟨_, scope, name, isScope, isName, rfl, rfl⟩ := splitRef?_ref split
            have letters := Letters.ref isScope isName
            exact ⟨by simpa using letters, trivial⟩
          · obtain ⟨isMark, rfl, ends⟩ := splitMark?_letters split
            exact ⟨.mark isMark, ends⟩

/-- A text is split into its first token and the rest where the letters of a token end. -/
theorem split?_eq_some_iff : split? cs = some (lexeme, taken, rest) ↔
    cs = taken ++ rest ∧ lexeme.Letters taken ∧ lexeme.Ends rest := by
  constructor
  · intro split
    exact ⟨(split?_made split).1.symm, letters_of_split? split⟩
  · rintro ⟨rfl, letters, ends⟩
    exact split?_of_letters letters ends

end Lexeme

/-- What stands behind a token may be cut off further behind, unless the token needs the bracket that stands
there. -/
theorem Lexeme.Ends.front {lexeme : Lexeme} {text right : List Char} (ends : lexeme.Ends (text ++ right))
    (kept : lexeme = .question true → text ≠ []) : lexeme.Ends text := by
  rcases text with _ | ⟨c, text⟩
  · cases lexeme with
    | quoted | ref => trivial
    | numeral => exact ⟨by rintro _ ⟨⟩, by rintro _ _ _ ⟨⟩⟩
    | question glued =>
      cases glued with
      | false => rintro _ ⟨⟩
      | true => exact absurd rfl (kept rfl)
    | _ => rintro _ ⟨⟩
  · cases lexeme with
    | numeral =>
      refine ⟨ends.1, fun point d behind same => ends.2 point d (behind ++ right) ?_⟩
      rw [same]
      rfl
    | question glued => cases glued <;> exact ends
    | _ => exact ends

/-- A character that is neither a blank nor the mark of a string. -/
def isSolid (c : Char) : Bool := !isBlank c && c != '"'

theorem not_blank_of_solid {c : Char} (solid : isSolid c) : ¬ isBlank c := by
  simp only [isSolid, Bool.and_eq_true, Bool.not_eq_true'] at solid
  rw [solid.1]
  exact Bool.false_ne_true

theorem ne_quote_of_solid {c : Char} (solid : isSolid c) : c ≠ '"' := by
  simp only [isSolid, Bool.and_eq_true, bne_iff_ne] at solid
  exact solid.2

theorem isSolid_of_part {c : Char} (part : isWordPart c) : isSolid c := by
  simp only [isSolid, isBlank, Bool.and_eq_true, Bool.not_eq_true', Bool.or_eq_false_iff, decide_eq_false_iff_not,
    bne_iff_ne]
  refine ⟨⟨⟨⟨?_, ?_⟩, ?_⟩, ?_⟩, ?_⟩ <;> (rintro rfl; cases part)

theorem not_isWordPart_of_blank {c : Char} (blank : isBlank c) : ¬ isWordPart c :=
  fun part => not_blank_of_solid (isSolid_of_part part) blank

theorem IsNumeral.solid {cs : List Char} (numeral : IsNumeral cs) : ∀ c ∈ cs, isSolid c := by
  have digits {ds : List Char} (all : ∀ c ∈ ds, c.isDigit) : ∀ c ∈ ds, isSolid c := fun c member =>
    isSolid_of_part (isWordPart_of_digit (all c member))
  cases numeral with
  | whole _ all => exact digits all
  | pointed _ all _ places =>
    exact List.forall_mem_append.mpr ⟨digits all, List.forall_mem_cons.mpr ⟨rfl, digits places⟩⟩

namespace Lexeme

theorem mark_solid {lexeme : Lexeme} (isMark : lexeme.IsMark) : ∀ c ∈ lexeme.mark, isSolid c := by
  cases lexeme with
  | word | numeral | quoted | ref => cases isMark
  | operator op => cases op <;> first | exact List.all_eq_true.mp rfl | cases isMark
  | _ => exact List.all_eq_true.mp rfl

theorem not_grows_blank {c : Char} (blank : isBlank c) (lexeme : Lexeme) : ¬ lexeme.grows c := by
  simp only [isBlank, Bool.or_eq_true, decide_eq_true_eq] at blank
  unfold grows
  rcases blank with ((rfl | rfl) | rfl) | rfl <;> split <;> decide

end Lexeme

end LazyExpr
