import Mathlib.Tactic.SplitIfs
import LazyExpr.Text.Quoted

namespace LazyExpr

namespace Quoted

variable {text inner : List Char}

/-- What may stand inside a literal. A backslash comes with the character that it escapes, so a quote
behind an even run of backslashes closes the literal and one behind an odd run does not. -/
inductive Inside : List Char → Prop
  | nil : Inside []
  | pair {inner : List Char} (c : Char) : Inside inner → Inside ('\\' :: c :: inner)
  | plain {inner : List Char} {c : Char} : c ≠ '"' → c ≠ '\\' → Inside inner → Inside (c :: inner)

/-- Texts that do not go on inside a literal: a closing quote, a backslash that nothing follows, or
nothing. -/
inductive Stops : List Char → Prop
  | quote (rest : List Char) : Stops ('"' :: rest)
  | backslash : Stops ['\\']
  | nothing : Stops []

theorem ne_backslash {c : Char} {rest : List Char} (notLone : c = '\\' → rest = [] → False)
    (notPair : ∀ d behind, c = '\\' → rest = d :: behind → False) : c ≠ '\\' := by
  rintro rfl
  cases rest with
  | nil => exact notLone rfl rfl
  | cons d rest => exact notPair d rest rfl rfl

/-- Every text goes on inside a literal as far as it can. -/
theorem exists_inside (text : List Char) :
    ∃ inner behind, Inside inner ∧ Stops behind ∧ text = inner ++ behind := by
  induction text using decodeBody.induct with
  | case1 => exact ⟨[], _, .nil, .nothing, rfl⟩
  | case2 rest => exact ⟨[], _, .nil, .quote rest, rfl⟩
  | case3 => exact ⟨[], _, .nil, .backslash, rfl⟩
  | case4 c rest ih =>
    obtain ⟨inner, behind, inside, stops, whole⟩ := ih
    exact ⟨_, behind, .pair c inside, stops, congrArg (fun more => '\\' :: c :: more) whole⟩
  | case5 c rest notQuote notLone notPair ih =>
    obtain ⟨inner, behind, inside, stops, whole⟩ := ih
    exact ⟨_, behind, .plain notQuote (ne_backslash notLone notPair) inside, stops, congrArg (c :: ·) whole⟩

/-- What the inside of a literal stands for. -/
@[simp] def unescaped : List Char → List Char
  | '\\' :: c :: rest => unescape c ++ unescaped rest
  | c :: rest => c :: unescaped rest
  | [] => []

theorem unescaped_plain {c : Char} (notBackslash : c ≠ '\\') (rest : List Char) :
    unescaped (c :: rest) = c :: unescaped rest := by
  rw [unescaped]
  rintro _ _ rfl -
  exact notBackslash rfl

theorem decodeBody_plain {c : Char} (notQuote : c ≠ '"') (notBackslash : c ≠ '\\') (rest : List Char) :
    decodeBody (c :: rest) =
      (decodeBody rest).map fun (content, taken, rest) => (c :: content, c :: taken, rest) := by
  rw [decodeBody]
  · exact notQuote
  · rintro rfl -
    exact notBackslash rfl
  · rintro _ _ rfl -
    exact notBackslash rfl

/-- Decoding finds the end of the inside in the same pass in which it collects what the inside stands for. -/
theorem Inside.decodeBody (inside : Inside inner) (behind : List Char) :
    decodeBody (inner ++ behind) = (decodeBody behind).map fun found =>
      (unescaped inner ++ found.1, inner ++ found.2.1, found.2.2) := by
  induction inside with
  | nil => simp [unescaped]
  | pair c _ ih =>
    rw [List.cons_append, List.cons_append, Quoted.decodeBody, ih, Option.map_map]
    simp [Function.comp_def, unescaped]
  | plain notQuote notBackslash _ ih =>
    rw [List.cons_append, decodeBody_plain notQuote notBackslash, ih, Option.map_map]
    simp [Function.comp_def, unescaped_plain notBackslash]

variable {content taken rest : List Char}

theorem decodeBody_eq_some_iff :
    decodeBody text = some (content, taken, rest) ↔
      ∃ inner, Inside inner ∧ text = inner ++ '"' :: rest ∧ content = unescaped inner ∧ taken = inner ++ ['"'] := by
  constructor
  · intro decoded
    obtain ⟨inner, behind, inside, stops, rfl⟩ := exists_inside text
    rw [inside.decodeBody] at decoded
    cases stops with
    | quote behind =>
      cases decoded
      exact ⟨inner, inside, rfl, List.append_nil _, rfl⟩
    | backslash => cases decoded
    | nothing => cases decoded
  · rintro ⟨inner, inside, rfl, rfl, rfl⟩
    rw [inside.decodeBody]
    simp [decodeBody]

theorem decode_of_ne_quote {c : Char} (notQuote : c ≠ '"') (text : List Char) : decode (c :: text) = none := by
  rw [decode]
  rintro _ ⟨⟩
  exact notQuote rfl

theorem decode_eq_some_iff :
    decode text = some (content, taken, rest) ↔
      ∃ inner, Inside inner ∧ text = '"' :: (inner ++ '"' :: rest) ∧ content = unescaped inner ∧
        taken = '"' :: (inner ++ ['"']) := by
  constructor
  · intro decoded
    rcases text with _ | ⟨c, text⟩
    · cases decoded
    by_cases quote : c = '"'
    · subst quote
      obtain ⟨⟨content, taken, rest⟩, body, same⟩ := Option.map_eq_some_iff.mp decoded
      obtain ⟨inner, inside, rfl, rfl, rfl⟩ := decodeBody_eq_some_iff.mp body
      cases same
      exact ⟨inner, inside, rfl, rfl, rfl⟩
    · rw [decode_of_ne_quote quote] at decoded
      cases decoded
  · rintro ⟨inner, inside, rfl, rfl, rfl⟩
    rw [decode, decodeBody_eq_some_iff.mpr ⟨inner, inside, rfl, rfl, rfl⟩, Option.map_some]

theorem decode_splits (decoded : decode text = some (content, taken, rest)) :
    taken ++ rest = text ∧ taken ≠ [] := by
  obtain ⟨inner, _, rfl, _, rfl⟩ := decode_eq_some_iff.mp decoded
  exact ⟨by simp, List.cons_ne_nil _ _⟩

theorem decode_quote (decoded : decode text = some (content, taken, rest)) : ∃ more, taken = '"' :: more := by
  obtain ⟨inner, _, _, _, rfl⟩ := decode_eq_some_iff.mp decoded
  exact ⟨_, rfl⟩

/-- A literal ends where it ends, whatever is behind it. -/
theorem decode_rest (decoded : decode text = some (content, taken, rest)) (rest' : List Char) :
    decode (taken ++ rest') = some (content, taken, rest') := by
  obtain ⟨inner, inside, _, rfl, rfl⟩ := decode_eq_some_iff.mp decoded
  exact decode_eq_some_iff.mpr ⟨inner, inside, by simp, rfl, rfl⟩

theorem Inside.append (inside : Inside inner) {more : List Char} (inside' : Inside more) :
    Inside (inner ++ more) := by
  induction inside with
  | nil => exact inside'
  | pair c _ ih => exact .pair c ih
  | plain notQuote notBackslash _ ih => exact .plain notQuote notBackslash ih

theorem Inside.unescaped_append (inside : Inside inner) (more : List Char) :
    unescaped (inner ++ more) = unescaped inner ++ unescaped more := by
  induction inside with
  | nil => rfl
  | pair c _ ih =>
    simp only [List.cons_append, unescaped, ih, List.append_assoc]
  | plain _ notBackslash _ ih =>
    rw [List.cons_append, unescaped_plain notBackslash, unescaped_plain notBackslash, ih, List.cons_append]

theorem inside_escape (c : Char) : Inside (escape c) ∧ unescaped (escape c) = [c] := by
  unfold escape
  split_ifs with quote backslash newline tab carriage
  · subst quote
    exact ⟨.pair _ .nil, rfl⟩
  · subst backslash
    exact ⟨.pair _ .nil, rfl⟩
  · subst newline
    exact ⟨.pair _ .nil, rfl⟩
  · subst tab
    exact ⟨.pair _ .nil, rfl⟩
  · subst carriage
    exact ⟨.pair _ .nil, rfl⟩
  · exact ⟨.plain quote backslash .nil, unescaped_plain backslash []⟩

/-- What is written for characters may stand inside a literal, and stands for them. -/
theorem inside_flatMap_escape (content : List Char) :
    Inside (content.flatMap escape) ∧ unescaped (content.flatMap escape) = content := by
  induction content with
  | nil => exact ⟨.nil, rfl⟩
  | cons c content ih =>
    obtain ⟨first, char⟩ := inside_escape c
    rw [List.flatMap_cons, first.unescaped_append, char, ih.2]
    exact ⟨first.append ih.1, rfl⟩

/-- Decoding undoes encoding, whatever follows. -/
theorem decode_encode (content rest : List Char) :
    decode (encode content ++ rest) = some (content, encode content, rest) := by
  obtain ⟨inside, same⟩ := inside_flatMap_escape content
  exact decode_eq_some_iff.mpr ⟨_, inside, by simp [encode], same.symm, rfl⟩

end Quoted

end LazyExpr
