import LazyExpr.Proofs.Syntax.Readable

namespace LazyExpr

namespace Token

/-- The token as if it had been read nowhere. -/
def withoutSpan (t : Token) : Token := { t with span := .synthetic }

@[simp] theorem withoutSpan_mk (lexeme : Lexeme) (s : Span) :
    withoutSpan ⟨lexeme, s⟩ = ⟨lexeme, .synthetic⟩ := rfl

@[simp] theorem lexeme_withoutSpan (t : Token) : t.withoutSpan.lexeme = t.lexeme := rfl

@[simp] theorem span_withoutSpan (t : Token) : t.withoutSpan.span = .synthetic := rfl

end Token

@[simp] theorem Span.merge_synthetic : Span.synthetic.merge .synthetic = .synthetic := rfl

namespace Expr

@[simp] theorem span_withoutSpans (e : Expr) : e.withoutSpans.span = .synthetic := by
  cases e <;> rfl

theorem listWithoutSpans_eq_map (items : List Expr) : listWithoutSpans items = items.map withoutSpans := by
  induction items with
  | nil => rfl
  | cons e items ih => rw [listWithoutSpans, ih, List.map_cons]

theorem join_withoutSpans (op : Operator) (left right : Expr) :
    (join op left right).withoutSpans = join op left.withoutSpans right.withoutSpans := by
  unfold join
  simp only [span_withoutSpans, Span.merge_synthetic]
  cases op <;> rfl

theorem coalesce_withoutSpans (s : Span) (left right : Expr) :
    (coalesce s left right).withoutSpans = join .coalesce left.withoutSpans right.withoutSpans :=
  join_withoutSpans .coalesce left right

theorem binary_withoutSpans (s : Span) {op : Operator} (plain : op ≠ .coalesce) (left right : Expr) :
    (binary s op left right).withoutSpans = join op left.withoutSpans right.withoutSpans := by
  rw [← join_withoutSpans]
  cases op <;> first | rfl | exact absurd rfl plain

end Expr

/-- The second reader finds in tokens without spans what the first one finds in the tokens themselves,
apart from spans. -/
def Reader.Erases {α : Type} (reader erased : Reader α) (erase : α → α) : Prop :=
  ∀ tokens, erased (tokens.map Token.withoutSpan) =
    (reader tokens).map (Prod.map erase (List.map Token.withoutSpan))

namespace Grammar

variable {self erased : Reader Expr}

/-- Of items and the span of their closing mark, the items are left. -/
def eraseItems (found : List Expr × Span) : List Expr × Span :=
  (found.1.map Expr.withoutSpans, .synthetic)

theorem moreItems_erases (erases : self.Erases erased Expr.withoutSpans) (close : Lexeme) (fuel : Nat) :
    Reader.Erases (moreItems self close fuel) (moreItems erased close fuel) eraseItems := by
  intro tokens
  have apart_bare {fuel : Nat} {t : Token} (apart : ∀ n s, fuel = n + 1 → t = ⟨.comma, s⟩ → False) :
      ∀ n s, fuel = n + 1 → t.withoutSpan = ⟨.comma, s⟩ → False := by
    intro n s positive same
    obtain ⟨lexeme, span⟩ := t
    cases same
    exact apart n span positive rfl
  fun_induction moreItems self close fuel tokens with
  | case1 fuel s behind item after read items last left more ih =>
    simp [eraseItems, moreItems, erases behind, read, ih, more]
  | case2 fuel s behind item after read more ih =>
    simp [moreItems, erases behind, read, ih, more]
  | case3 fuel s behind read =>
    simp [moreItems, erases behind, read]
  | case4 fuel t behind closes apart =>
    rw [List.map_cons, moreItems.eq_2 _ _ _ _ _ (apart_bare apart)]
    simp [eraseItems, closes]
  | case5 fuel t behind opens apart =>
    rw [List.map_cons, moreItems.eq_2 _ _ _ _ _ (apart_bare apart)]
    simp [opens]
  | case6 => simp [moreItems]

theorem items_erases (erases : self.Erases erased Expr.withoutSpans) (close : Lexeme) :
    Reader.Erases (items self close) (items erased close) eraseItems := by
  intro tokens
  have more_erases := moreItems_erases erases close
  fun_cases items self close tokens with
  | case1 t rest closes => simp [eraseItems, items, closes]
  | case2 t rest opens item after read items last left more =>
    have first := erases (t :: rest)
    rw [List.map_cons, read] at first
    simp [eraseItems, Grammar.items, opens, first, more_erases after.length after, more]
  | case3 t rest opens item after read more =>
    have first := erases (t :: rest)
    rw [List.map_cons, read] at first
    simp [Grammar.items, opens, first, more_erases after.length after, more]
  | case4 t rest opens read =>
    have first := erases (t :: rest)
    rw [List.map_cons, read] at first
    simp [Grammar.items, opens, first]
  | case5 => simp [items]

theorem keyword?_erases (s : Span) (name : String) :
    keyword? .synthetic name = (keyword? s name).map Expr.withoutSpans := by
  unfold keyword?
  split
  · rfl
  · split
    · rfl
    · split
      · rfl
      · split <;> rfl

theorem numeral_erases (s : Span) (digits : List Char) :
    (numeral s digits).withoutSpans = numeral .synthetic digits := by
  unfold numeral
  split <;> rfl

theorem reference_erases (s : Span) (scope name : String) :
    (reference s scope name).withoutSpans = reference .synthetic scope name := by
  unfold reference
  split <;> rfl

theorem primary_erases (erases : self.Erases erased Expr.withoutSpans) :
    (primary self).Erases (primary erased) Expr.withoutSpans := by
  intro tokens
  rcases tokens with _ | ⟨⟨lexeme, s⟩, rest⟩
  · rfl
  cases lexeme with
  | word name =>
    simp only [List.map_cons, Token.withoutSpan_mk, primary, keyword?_erases s name]
    cases keyword? s name with
    | some e => rfl
    | none =>
      rcases rest with _ | ⟨⟨next, s'⟩, rest⟩
      · rfl
      cases next with
      | openParen =>
        have args := items_erases erases .closeParen rest
        simp only [Option.map_none, List.map_cons, Token.withoutSpan_mk, args]
        cases items self .closeParen rest with
        | none => rfl
        | some found => simp [eraseItems, Expr.withoutSpans, Expr.listWithoutSpans_eq_map]
      | _ => rfl
  | numeral digits => simp [primary, numeral_erases]
  | quoted content => simp [primary, Expr.withoutSpans]
  | ref scope name => simp [primary, reference_erases]
  | openBracket =>
    have list := items_erases erases .closeBracket rest
    simp only [List.map_cons, Token.withoutSpan_mk, primary, list]
    cases items self .closeBracket rest with
    | none => rfl
    | some found => simp [eraseItems, Expr.withoutSpans, Expr.listWithoutSpans_eq_map]
  | openParen =>
    simp only [List.map_cons, Token.withoutSpan_mk, primary, erases rest]
    rcases self rest with _ | ⟨e, _ | ⟨⟨next, s'⟩, rest⟩⟩
    · rfl
    · rfl
    · cases next <;> rfl
  | _ => rfl

theorem index?_erases (erases : self.Erases erased Expr.withoutSpans) (base : Expr) (safe : Bool) :
    (index? self base safe).Erases (index? erased base.withoutSpans safe) Expr.withoutSpans := by
  intro tokens
  simp only [index?, erases tokens]
  rcases self tokens with _ | ⟨e, _ | ⟨⟨next, s'⟩, rest⟩⟩
  · rfl
  · rfl
  · cases next <;> simp [Expr.withoutSpans]

theorem suffix?_erases (erases : self.Erases erased Expr.withoutSpans) (base : Expr) :
    (suffix? self base).Erases (suffix? erased base.withoutSpans) Expr.withoutSpans := by
  intro tokens
  rcases tokens with _ | ⟨⟨lexeme, s⟩, rest⟩
  · rfl
  cases lexeme with
  | dot =>
    rcases rest with _ | ⟨⟨next, s'⟩, rest⟩
    · rfl
    · cases next <;> simp [suffix?, Expr.withoutSpans]
  | safeDot =>
    rcases rest with _ | ⟨⟨next, s'⟩, rest⟩
    · rfl
    · cases next <;> simp [suffix?, Expr.withoutSpans]
  | openBracket => exact index?_erases erases base false rest
  | question glued =>
    rcases rest with _ | ⟨⟨next, s'⟩, rest⟩
    · cases glued <;> rfl
    · cases glued with
      | false => rfl
      | true =>
        cases next with
        | openBracket => exact index?_erases erases base true rest
        | _ => rfl
  | bang => simp [suffix?, Expr.withoutSpans]
  | _ => rfl

theorem suffixes_erases (erases : self.Erases erased Expr.withoutSpans) (fuel : Nat) (e : Expr)
    (tokens : List Token) :
    suffixes erased fuel e.withoutSpans (tokens.map Token.withoutSpan) =
      Prod.map Expr.withoutSpans (List.map Token.withoutSpan) (suffixes self fuel e tokens) := by
  fun_induction suffixes self fuel e tokens with
  | case1 => rfl
  | case2 fuel e tokens e' rest found ih => simp [suffixes, suffix?_erases erases e tokens, found, ih]
  | case3 fuel e tokens none => simp [suffixes, suffix?_erases erases e tokens, none]

/-- A sign keeps its operator only. -/
def eraseSign (sign : Operator × Span) : Operator × Span := (sign.1, .synthetic)

theorem signs_erases (tokens : List Token) :
    signs (tokens.map Token.withoutSpan) =
      Prod.map (List.map eraseSign) (List.map Token.withoutSpan) (signs tokens) := by
  induction tokens with
  | nil => rfl
  | cons t tokens ih =>
    obtain ⟨lexeme, s⟩ := t
    cases lexeme with
    | bang => simp [signs, ih, eraseSign]
    | operator op => cases op <;> simp [signs, ih, eraseSign]
    | _ => rfl

theorem applySigns_erases (signs : List (Operator × Span)) (e : Expr) :
    (applySigns signs e).withoutSpans = applySigns (signs.map eraseSign) e.withoutSpans := by
  induction signs with
  | nil => rfl
  | cons sign signs ih =>
    show Expr.unary .synthetic sign.1 (applySigns signs e).withoutSpans =
      .unary ((eraseSign sign).2.merge (applySigns (signs.map eraseSign) e.withoutSpans).span) sign.1
        (applySigns (signs.map eraseSign) e.withoutSpans)
    rw [← ih, Expr.span_withoutSpans]
    rfl

theorem operand_erases (erases : self.Erases erased Expr.withoutSpans) :
    (operand self).Erases (operand erased) Expr.withoutSpans := by
  intro tokens
  simp only [operand, signs_erases, Prod.map_fst, Prod.map_snd, primary_erases erases (signs tokens).2]
  rcases primary self (signs tokens).2 with _ | ⟨e, rest⟩
  · rfl
  · simp [suffixes_erases erases, applySigns_erases]

theorem chain_erases (erases : self.Erases erased Expr.withoutSpans) (fuel : Nat) (tokens : List Token) :
    chain erased fuel (tokens.map Token.withoutSpan) =
      Prod.map (List.map (Prod.map id Expr.withoutSpans)) (List.map Token.withoutSpan)
        (chain self fuel tokens) := by
  induction fuel generalizing tokens with
  | zero => rfl
  | succ fuel ih =>
    rcases tokens with _ | ⟨⟨lexeme, s⟩, rest⟩
    · rfl
    cases lexeme with
    | operator op =>
      simp only [List.map_cons, Token.withoutSpan_mk, chain, operand_erases erases rest]
      rcases operand self rest with _ | ⟨e, behind⟩
      · rfl
      · simp [ih]
    | _ => rfl

theorem binary_erases (erases : self.Erases erased Expr.withoutSpans) :
    (binary self).Erases (binary erased) Expr.withoutSpans := by
  intro tokens
  simp only [binary, operand_erases erases tokens]
  rcases operand self tokens with _ | ⟨e, rest⟩
  · rfl
  · simp [chain_erases erases, group_map Expr.join_withoutSpans]

theorem branches_erases (erases : self.Erases erased Expr.withoutSpans) :
    Reader.Erases (branches self) (branches erased) (Prod.map Expr.withoutSpans Expr.withoutSpans) := by
  intro tokens
  simp only [branches, erases tokens]
  rcases self tokens with _ | ⟨yes, _ | ⟨⟨next, s'⟩, rest⟩⟩
  · rfl
  · rfl
  · cases next with
    | colon =>
      simp only [Option.map_some, Prod.map_apply, List.map_cons, Token.withoutSpan_mk, erases rest]
      rcases self rest with _ | ⟨no, rest⟩ <;> rfl
    | _ => rfl

theorem nextStart_erased (tokens : List Token) : nextStart 0 (tokens.map Token.withoutSpan) = 0 := by
  cases tokens <;> rfl

theorem level_erases (stop : Nat) (erases : self.Erases erased Expr.withoutSpans) :
    (level stop self).Erases (level 0 erased) Expr.withoutSpans := by
  intro tokens
  simp only [level, binary_erases erases tokens]
  rcases binary self tokens with _ | ⟨condition, _ | ⟨⟨next, s'⟩, rest⟩⟩
  · rfl
  · rfl
  · cases next with
    | question glued =>
      simp only [Option.map_some, Prod.map_apply, List.map_cons, Token.withoutSpan_mk,
        branches_erases erases rest]
      rcases branches self rest with _ | ⟨⟨yes, no⟩, after⟩
      · rfl
      · simp [nextStart_erased, Expr.withoutSpans, Span.synthetic]
    | _ => rfl

/-- Where tokens stand in a text makes no difference beyond the spans of the tree. -/
theorem expr_erases (stop depth : Nat) : (expr stop depth).Erases (expr 0 depth) Expr.withoutSpans := by
  induction depth with
  | zero => intro tokens; rfl
  | succ depth ih => exact level_erases stop ih

theorem whole?_erases (stop : Nat) (tokens : List Token) :
    whole? 0 (tokens.map Token.withoutSpan) = (whole? stop tokens).map Expr.withoutSpans := by
  simp only [whole?, List.length_map, expr_erases stop _ tokens]
  rcases expr stop (tokens.length + 1) tokens with _ | ⟨e, _ | ⟨t, rest⟩⟩ <;> rfl

end Grammar

end LazyExpr
