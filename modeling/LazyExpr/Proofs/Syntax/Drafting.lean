import LazyExpr.Syntax.Draft

namespace LazyExpr

/-- The first fault of tokens in a row. -/
def faultOf (tokens : List Token) : Option ReadError := tokens.findSome? Token.fault?

theorem faultOf_append (a b : List Token) : faultOf (a ++ b) = (faultOf a).or (faultOf b) := List.findSome?_append

theorem faultOf_cons (t : Token) (rest : List Token) : faultOf (t :: rest) = t.fault?.or (faultOf rest) := by
  rw [faultOf, List.findSome?_cons]
  cases t.fault? <;> rfl

namespace Draft

variable {α β γ : Type} {fault later : Option ReadError} {a : α} {b : β}

/-- What has been built from tokens with this fault, if they have one. -/
def settle (fault : Option ReadError) (a : α) : Draft α :=
  match fault with
  | some complaint => .error complaint
  | none => .ok a

theorem settle_map (f : α → β) : (settle fault a >>= fun a => pure (f a)) = settle fault (f a) := by
  cases fault <;> rfl

/-- Of two parts that are built in a row the first one is given up first. -/
theorem settle_both (f : α → β → γ) : (do
    let a ← settle fault a
    let b ← settle later b
    pure (f a b)) = settle (fault.or later) (f a b) := by
  cases fault <;> cases later <;> rfl

/-- Both readers decline, or both take the same tokens from the front. Then the draft is what the other reader
gives, unless there was a fault before or one of these tokens has one. -/
inductive Draws (before : Option ReadError) (tokens : List Token) :
    Option (Draft α × List Token) → Option (α × List Token) → Prop
  | neither : Draws before tokens none none
  | both {a taken rest} : tokens = taken ++ rest →
      Draws before tokens (some (settle (before.or (faultOf taken)) a, rest)) (some (a, rest))

theorem Draws.of {before : Option ReadError} {tokens rest : List Token} {draft : Draft α} (taken : List Token)
    (split : tokens = taken ++ rest) (same : draft = settle (before.or (faultOf taken)) a) :
    Draws before tokens (some (draft, rest)) (some (a, rest)) := same ▸ .both split

/-- The first reader builds what the second one reads. -/
def Drafts (drafts : Reader (Draft α)) (reader : Reader α) : Prop :=
  ∀ tokens, Draws none tokens (drafts tokens) (reader tokens)

variable {draft : Reader (Draft Expr)} {self : Reader Expr}

theorem numeral_settles (s : Span) (digits : List Char) :
    numeral s digits = settle (faultOf [⟨.numeral digits, s⟩]) (Grammar.numeral s digits) := by
  simp only [numeral, Grammar.numeral, faultOf, List.findSome?_singleton, Token.fault?]
  cases Numeral.value? digits <;> rfl

theorem reference_settles (s : Span) (scope name : String) :
    reference s scope name = settle (faultOf [⟨.ref scope name, s⟩]) (Grammar.reference s scope name) := by
  simp only [reference, Grammar.reference, faultOf, List.findSome?_singleton, Token.fault?]
  cases Scope.ofKeyword? scope <;> rfl

/-- Nothing is wrong with a mark, wherever it stands. -/
def Quiet (lexeme : Lexeme) : Prop := ∀ s, Token.fault? ⟨lexeme, s⟩ = none

theorem close_draws {close : Lexeme} (quiet : Quiet close) (t : Token) (rest : List Token) :
    Draws (α := List Expr × Span) none (t :: rest)
      (if t.lexeme = close then some (pure ([], t.span), rest) else none)
      (if t.lexeme = close then some (([], t.span), rest) else none) := by
  split
  · rename_i closes
    refine .of [t] rfl ?_
    have fault : faultOf [t] = none := by
      rw [faultOf, List.findSome?_singleton, ← quiet t.span, ← closes]
    rw [fault]
    rfl
  · exact .neither

theorem moreItems_drafts (drafts : Drafts draft self) {close : Lexeme} (quiet : Quiet close) (fuel : Nat) :
    Drafts (moreItems draft close fuel) (Grammar.moreItems self close fuel) := by
  intro tokens
  induction fuel generalizing tokens with
  | zero =>
    cases tokens with
    | nil => exact .neither
    | cons t rest => exact close_draws quiet t rest
  | succ fuel ih =>
    rcases tokens with _ | ⟨⟨lexeme, s⟩, rest⟩
    · exact .neither
    cases lexeme with
    | comma =>
      have first := drafts rest
      rw [moreItems, Grammar.moreItems]
      generalize draft rest = x, self rest = y at first ⊢
      cases first with
      | neither => exact .neither
      | @both item taken rest split =>
        have others := ih rest
        dsimp only
        generalize moreItems draft close fuel rest = x, Grammar.moreItems self close fuel rest = y at others ⊢
        cases others with
        | neither => exact .neither
        | @both more taken' rest split' =>
          refine .of (⟨.comma, s⟩ :: (taken ++ taken')) ?_ ?_
          · rw [split, split', List.cons_append, List.append_assoc]
          · rw [faultOf_cons, faultOf_append]
            exact settle_both fun (item : Expr) (more : List Expr × Span) => (item :: more.1, more.2)
    | _ => exact close_draws quiet _ rest

theorem items_drafts (drafts : Drafts draft self) {close : Lexeme} (quiet : Quiet close) :
    Drafts (items draft close) (Grammar.items self close) := by
  intro tokens
  rcases tokens with _ | ⟨t, rest⟩
  · exact .neither
  by_cases closes : t.lexeme = close
  · have empty := close_draws quiet t rest
    rw [if_pos closes, if_pos closes] at empty
    rw [items, Grammar.items, if_pos closes, if_pos closes]
    exact empty
  · have first := drafts (t :: rest)
    rw [items, Grammar.items, if_neg closes, if_neg closes]
    generalize draft (t :: rest) = x, self (t :: rest) = y at first ⊢
    cases first with
    | neither => exact .neither
    | @both item taken rest split =>
      have others := moreItems_drafts drafts quiet rest.length rest
      dsimp only
      generalize moreItems draft close rest.length rest = x, Grammar.moreItems self close rest.length rest = y
        at others ⊢
      cases others with
      | neither => exact .neither
      | @both more taken' rest split' =>
        refine .of (taken ++ taken') ?_ ?_
        · rw [split, split', List.append_assoc]
        · rw [faultOf_append]
          exact settle_both fun (item : Expr) (more : List Expr × Span) => (item :: more.1, more.2)

theorem keyword_draws {t : Token} (quiet : t.fault? = none) (e : Expr) (rest : List Token) :
    Draws none (t :: rest) (some (pure e, rest)) (some (e, rest)) := by
  refine .of [t] rfl ?_
  have fault : faultOf [t] = none := by rw [faultOf, List.findSome?_singleton, quiet]
  rw [fault]
  rfl

/-- One node is made of items between brackets. -/
theorem enclosed_draws {opening tokens taken rest : List Token} (plain : faultOf opening = none)
    (split : tokens = taken ++ rest) (make : List Expr × Span → Expr) (found : List Expr × Span) :
    Draws none (opening ++ tokens)
      (some (settle (none.or (faultOf taken)) found >>= fun found => pure (make found), rest))
      (some (make found, rest)) := by
  refine .of (opening ++ taken) ?_ ?_
  · rw [split, List.append_assoc]
  · rw [faultOf_append, plain]
    exact settle_map make

theorem primary_drafts (drafts : Drafts draft self) : Drafts (primary draft) (Grammar.primary self) := by
  intro tokens
  rcases tokens with _ | ⟨⟨lexeme, s⟩, rest⟩
  · exact .neither
  cases lexeme with
  | word name =>
    unfold primary Grammar.primary
    dsimp only
    cases Grammar.keyword? s name with
    | some e => exact keyword_draws rfl e rest
    | none =>
      rcases rest with _ | ⟨⟨next, s'⟩, rest⟩
      · exact .neither
      cases next with
      | openParen =>
        have inside := @items_drafts draft self drafts .closeParen (fun _ => rfl) rest
        dsimp only
        generalize items draft .closeParen rest = x, Grammar.items self .closeParen rest = y at inside ⊢
        cases inside with
        | neither => exact .neither
        | @both found taken rest split =>
          exact @enclosed_draws [⟨.word name, s⟩, ⟨.openParen, s'⟩] _ _ _ rfl split
            (fun found => .call (s.merge found.2) name found.1) found
      | _ => exact .neither
  | numeral digits => exact .of [_] rfl (numeral_settles s digits)
  | quoted content => exact keyword_draws rfl _ rest
  | ref scope name => exact .of [_] rfl (reference_settles s scope name)
  | openBracket =>
    have inside := @items_drafts draft self drafts .closeBracket (fun _ => rfl) rest
    rw [primary, Grammar.primary]
    generalize items draft .closeBracket rest = x, Grammar.items self .closeBracket rest = y at inside ⊢
    cases inside with
    | neither => exact .neither
    | @both found taken rest split =>
      exact @enclosed_draws [⟨.openBracket, s⟩] _ _ _ rfl split (fun found => .list (s.merge found.2) found.1) found
  | openParen =>
    have inside := drafts rest
    rw [primary, Grammar.primary]
    generalize draft rest = x, self rest = y at inside ⊢
    cases inside with
    | neither => exact .neither
    | @both e taken rest split =>
      rcases rest with _ | ⟨⟨next, s'⟩, rest⟩
      · exact .neither
      cases next with
      | closeParen =>
        refine .of (⟨.openParen, s⟩ :: (taken ++ [⟨.closeParen, s'⟩])) ?_ ?_
        · rw [split, List.cons_append, List.append_assoc]
          rfl
        · rw [faultOf_cons, faultOf_append]
          exact congrArg (settle · e) (Option.or_none).symm
      | _ => exact .neither
  | _ => exact .neither

theorem index?_draws (drafts : Drafts draft self) (before : Option ReadError) (base : Expr) (safe : Bool)
    {opening : List Token} (plain : faultOf opening = none) (rest : List Token) :
    Draws before (opening ++ rest) (index? draft (settle before base) safe rest)
      (Grammar.index? self base safe rest) := by
  have inside := drafts rest
  rw [index?, Grammar.index?]
  generalize draft rest = x, self rest = y at inside ⊢
  cases inside with
  | neither => exact .neither
  | @both key taken rest split =>
    rcases rest with _ | ⟨⟨next, s⟩, rest⟩
    · exact .neither
    cases next with
    | closeBracket =>
      refine .of (opening ++ (taken ++ [⟨.closeBracket, s⟩])) ?_ ?_
      · rw [split, List.append_assoc, List.append_assoc]
        rfl
      · have closing : faultOf [⟨.closeBracket, s⟩] = none := rfl
        rw [faultOf_append, faultOf_append, plain, closing, Option.or_none]
        exact settle_both fun (base key : Expr) => Expr.index (base.span.merge s) base key safe
    | _ => exact .neither

theorem suffix?_draws (drafts : Drafts draft self) (before : Option ReadError) (e : Expr) (tokens : List Token) :
    Draws before tokens (suffix? draft (settle before e) tokens) (Grammar.suffix? self e tokens) := by
  have built : ∀ (f : Expr → Expr) (taken rest : List Token), faultOf taken = none →
      Draws before (taken ++ rest) (some (settle before e >>= fun e => pure (f e), rest)) (some (f e, rest)) := by
    intro f taken rest plain
    refine .of taken rfl ?_
    rw [plain, Option.or_none]
    exact settle_map f
  rcases tokens with _ | ⟨⟨lexeme, s⟩, rest⟩
  · exact .neither
  cases lexeme with
  | dot | safeDot =>
    rcases rest with _ | ⟨⟨next, s'⟩, rest⟩
    · exact .neither
    cases next with
    | word name => exact built (fun e => .field (e.span.merge s') e name _) [_, _] rest rfl
    | _ => exact .neither
  | openBracket => exact @index?_draws draft self drafts before e false [_] rfl rest
  | question glued =>
    rcases rest with _ | ⟨⟨next, s'⟩, rest⟩
    · cases glued <;> exact .neither
    cases glued with
    | false => exact .neither
    | true =>
      cases next with
      | openBracket => exact @index?_draws draft self drafts before e true [_, _] rfl rest
      | _ => exact .neither
  | bang => exact built (fun e => .unary (e.span.merge s) .assertPresent e) [_] rest rfl
  | _ => exact .neither

theorem suffixes_draws (drafts : Drafts draft self) (fuel : Nat) (before : Option ReadError) (e : Expr)
    (tokens : List Token) : ∃ taken, tokens = taken ++ (Grammar.suffixes self fuel e tokens).2 ∧
      suffixes draft fuel (settle before e) tokens =
        (settle (before.or (faultOf taken)) (Grammar.suffixes self fuel e tokens).1,
          (Grammar.suffixes self fuel e tokens).2) := by
  induction fuel generalizing before e tokens with
  | zero => exact ⟨[], rfl, by rw [faultOf, List.findSome?_nil, Option.or_none]; rfl⟩
  | succ fuel ih =>
    have next := suffix?_draws drafts before e tokens
    rw [suffixes, Grammar.suffixes]
    generalize suffix? draft (settle before e) tokens = x, Grammar.suffix? self e tokens = y at next ⊢
    cases next with
    | neither => exact ⟨[], rfl, by rw [faultOf, List.findSome?_nil, Option.or_none]⟩
    | @both e' taken rest split =>
      obtain ⟨taken', split', same⟩ := ih (before.or (faultOf taken)) e' rest
      refine ⟨taken ++ taken', ?_, ?_⟩
      · rw [List.append_assoc, ← split', split]
      · rw [faultOf_append, ← Option.or_assoc]
        exact same

/-- Nothing is wrong with signs. -/
theorem signs_split (tokens : List Token) :
    ∃ taken, tokens = taken ++ (Grammar.signs tokens).2 ∧ faultOf taken = none := by
  induction tokens with
  | nil => exact ⟨[], rfl, rfl⟩
  | cons t rest ih =>
    obtain ⟨taken, split, plain⟩ := ih
    obtain ⟨lexeme, s⟩ := t
    cases lexeme with
    | bang => exact ⟨⟨.bang, s⟩ :: taken, congrArg (_ :: ·) split, plain⟩
    | operator op =>
      cases op with
      | minus => exact ⟨⟨.operator .minus, s⟩ :: taken, congrArg (_ :: ·) split, plain⟩
      | _ => exact ⟨[], rfl, rfl⟩
    | _ => exact ⟨[], rfl, rfl⟩

theorem operand_drafts (drafts : Drafts draft self) : Drafts (operand draft) (Grammar.operand self) := by
  intro tokens
  obtain ⟨ahead, split, plain⟩ := signs_split tokens
  have first := primary_drafts drafts (Grammar.signs tokens).2
  rw [operand, Grammar.operand]
  dsimp only
  generalize primary draft (Grammar.signs tokens).2 = x, Grammar.primary self (Grammar.signs tokens).2 = y
    at first ⊢
  cases first with
  | neither => exact .neither
  | @both e taken rest split' =>
    obtain ⟨taken', split'', same⟩ := suffixes_draws drafts rest.length (none.or (faultOf taken)) e rest
    dsimp only
    rw [same]
    refine .of (ahead ++ (taken ++ taken')) ?_ ?_
    · rw [List.append_assoc, List.append_assoc, ← split'', ← split', ← split]
    · rw [faultOf_append, faultOf_append, plain]
      exact settle_map (Grammar.applySigns _)

theorem chain_draws (drafts : Drafts draft self) (fuel : Nat) (tokens : List Token) :
    ∃ taken, tokens = taken ++ (Grammar.chain self fuel tokens).2 ∧
      chain draft fuel tokens =
        (settle (faultOf taken) (Grammar.chain self fuel tokens).1, (Grammar.chain self fuel tokens).2) := by
  induction fuel generalizing tokens with
  | zero => exact ⟨[], rfl, rfl⟩
  | succ fuel ih =>
    rcases tokens with _ | ⟨⟨lexeme, s⟩, rest⟩
    · exact ⟨[], rfl, rfl⟩
    cases lexeme with
    | operator op =>
      have first := operand_drafts drafts rest
      rw [chain, Grammar.chain]
      generalize operand draft rest = x, Grammar.operand self rest = y at first ⊢
      cases first with
      | neither => exact ⟨[], rfl, rfl⟩
      | @both e taken rest split =>
        obtain ⟨taken', split', same⟩ := ih rest
        refine ⟨⟨.operator op, s⟩ :: (taken ++ taken'), ?_, ?_⟩
        · dsimp only
          rw [List.cons_append, List.append_assoc, ← split', split]
        · rw [faultOf_cons, faultOf_append]
          dsimp only
          rw [same]
          exact congrArg (·, _) (settle_both fun (e : Expr) (pairs : List (Operator × Expr)) => (op, e) :: pairs)
    | _ => exact ⟨[], rfl, rfl⟩

theorem binary_drafts (drafts : Drafts draft self) : Drafts (binary draft) (Grammar.binary self) := by
  intro tokens
  have first := operand_drafts drafts tokens
  rw [binary, Grammar.binary]
  generalize operand draft tokens = x, Grammar.operand self tokens = y at first ⊢
  cases first with
  | neither => exact .neither
  | @both e taken rest split =>
    obtain ⟨taken', split', same⟩ := chain_draws drafts rest.length rest
    dsimp only
    rw [same]
    refine .of (taken ++ taken') ?_ ?_
    · rw [List.append_assoc, ← split', split]
    · rw [faultOf_append]
      exact settle_both fun (first : Expr) (pairs : List (Operator × Expr)) => group Expr.join first pairs

theorem branches_drafts (drafts : Drafts draft self) : Drafts (branches draft) (Grammar.branches self) := by
  intro tokens
  have first := drafts tokens
  rw [branches, Grammar.branches]
  generalize draft tokens = x, self tokens = y at first ⊢
  cases first with
  | neither => exact .neither
  | @both yes taken rest split =>
    rcases rest with _ | ⟨⟨next, s⟩, rest⟩
    · exact .neither
    cases next with
    | colon =>
      have second := drafts rest
      dsimp only
      generalize draft rest = x, self rest = y at second ⊢
      cases second with
      | neither => exact .neither
      | @both no taken' rest split' =>
        refine .of (taken ++ ⟨.colon, s⟩ :: taken') ?_ ?_
        · rw [split, split', List.append_assoc, List.cons_append]
        · rw [faultOf_append, faultOf_cons]
          exact settle_both fun (yes no : Expr) => (yes, no)
    | _ => exact .neither

/-- A chain behind which no conditional follows is built by itself. -/
theorem level_drafts (stop : Nat) (drafts : Drafts draft self) :
    Drafts (level stop draft) (Grammar.level stop self) := by
  intro tokens
  have chain := binary_drafts drafts tokens
  rw [level, Grammar.level]
  generalize binary draft tokens = x, Grammar.binary self tokens = y at chain ⊢
  cases chain with
  | neither => exact .neither
  | @both condition taken rest split =>
    rcases rest with _ | ⟨⟨next, s⟩, rest⟩
    · exact .both split
    cases next with
    | question glued =>
      have both := branches_drafts drafts rest
      dsimp only
      generalize branches draft rest = x, Grammar.branches self rest = y at both ⊢
      cases both with
      | neither => exact .both split
      | @both sides taken' after split' =>
        refine .of (taken ++ ⟨.question glued, s⟩ :: taken') ?_ ?_
        · rw [split, split', List.append_assoc, List.cons_append]
        · rw [faultOf_append, faultOf_cons]
          exact settle_both fun (condition : Expr) (sides : Expr × Expr) =>
            Expr.choose ⟨Grammar.nextStart stop tokens, Grammar.nextStart stop after⟩ condition sides.1 sides.2
    | _ => exact .both split

theorem expr_drafts (stop depth : Nat) : Drafts (expr stop depth) (Grammar.expr stop depth) := by
  induction depth with
  | zero => exact fun _ => .neither
  | succ depth ih => exact level_drafts stop ih

theorem whole?_settles (stop : Nat) (tokens : List Token) :
    whole? stop tokens = (Grammar.whole? stop tokens).map (settle (faultOf tokens)) := by
  have all := expr_drafts stop (tokens.length + 1) tokens
  rw [whole?, Grammar.whole?]
  generalize expr stop (tokens.length + 1) tokens = x, Grammar.expr stop (tokens.length + 1) tokens = y at all ⊢
  cases all with
  | neither => rfl
  | @both e taken rest split =>
    cases rest with
    | nil =>
      rw [split, List.append_nil]
      rfl
    | cons => rfl

end Draft

end LazyExpr
