import LazyExpr.Proofs.Syntax.Climbing
import LazyExpr.Proofs.Syntax.Tokens
import LazyExpr.Syntax.Read

namespace LazyExpr

/-- The trees that a text can stand for: literals are what a numeral or a keyword stands for, names are
identifiers, no call has the name of a keyword, and operators have as many operands as they take. -/
inductive Expr.Readable : Expr → Prop
  | null (s : Span) : Readable (.null s)
  | undefined (s : Span) : Readable (.literal s .undefined)
  | bool (s : Span) (b : Bool) : Readable (.literal s (.bool b))
  | numeral (s : Span) {digits : List Char} {value : Value} :
      Numeral.value? digits = some value → Readable (.literal s value)
  | string (s : Span) (content : String) : Readable (.literal s (.string content))
  | list (s : Span) {items : List Expr} : (∀ e ∈ items, Readable e) → Readable (.list s items)
  | ref (s : Span) (scope : Scope) {name : String} : IsWord name → Readable (.ref s scope name)
  | field (s : Span) {base : Expr} {name : String} (safe : Bool) :
      Readable base → IsWord name → Readable (.field s base name safe)
  | index (s : Span) {base key : Expr} (safe : Bool) :
      Readable base → Readable key → Readable (.index s base key safe)
  | coalesce (s : Span) {left right : Expr} :
      Readable left → Readable right → Readable (.coalesce s left right)
  | choose (s : Span) {condition yes no : Expr} :
      Readable condition → Readable yes → Readable no → Readable (.choose s condition yes no)
  | binary (s : Span) {op : Operator} {left right : Expr} :
      op.arity = 2 → op ≠ .coalesce → Readable left → Readable right → Readable (.binary s op left right)
  | unary (s : Span) {op : Operator} {operand : Expr} :
      op.arity = 1 → Readable operand → Readable (.unary s op operand)
  | call (s : Span) {name : String} {args : List Expr} :
      IsWord name → Grammar.keyword? .synthetic name = none → (∀ e ∈ args, Readable e) →
      Readable (.call s name args)

theorem Expr.Readable.join {op : Operator} {left right : Expr} (infixed : op.arity = 2)
    (readableLeft : left.Readable) (readableRight : right.Readable) : (Expr.join op left right).Readable := by
  unfold Expr.join
  by_cases coalescing : op = .coalesce
  · subst coalescing
    exact .coalesce _ readableLeft readableRight
  · have general := Expr.Readable.binary (left.span.merge right.span) infixed coalescing readableLeft readableRight
    cases op <;> first | exact general | exact absurd rfl coalescing

/-- A token that some text has, with nothing wrong about it. -/
def Token.Sound (t : Token) : Prop := t.lexeme.WellFormed ∧ t.fault? = none

/-- What a reader takes from the front of sound tokens has a property, and sound tokens are left. -/
def Reader.Yields {α : Type} (reader : Reader α) (P : α → Prop) : Prop :=
  ∀ {tokens result rest}, (∀ t ∈ tokens, t.Sound) → reader tokens = some (result, rest) →
    P result ∧ ∀ t ∈ rest, t.Sound

namespace Grammar

variable {self : Reader Expr}

/-- The words that stand for a literal. -/
theorem keyword?_cases {s : Span} {name : String} {e : Expr} (found : keyword? s name = some e) :
    name = "null" ∧ e = .null s ∨ name = "undefined" ∧ e = .literal s .undefined ∨
      ∃ b, name = (if b then "true" else "false") ∧ e = .literal s (.bool b) := by
  unfold keyword? at found
  split at found
  · rename_i same
    exact .inl ⟨same, (Option.some.inj found).symm⟩
  · split at found
    · rename_i same
      exact .inr (.inl ⟨same, (Option.some.inj found).symm⟩)
    · split at found
      · rename_i same
        exact .inr (.inr ⟨true, same, (Option.some.inj found).symm⟩)
      · split at found
        · rename_i same
          exact .inr (.inr ⟨false, same, (Option.some.inj found).symm⟩)
        · cases found

theorem keyword?_readable {s : Span} {name : String} {e : Expr} (found : keyword? s name = some e) :
    e.Readable := by
  obtain ⟨_, rfl⟩ | ⟨_, rfl⟩ | ⟨b, _, rfl⟩ := keyword?_cases found
  · exact .null s
  · exact .undefined s
  · exact .bool s b

/-- Where a word stands does not matter for whether it is a keyword. -/
theorem keyword?_eq_none {s : Span} (s' : Span) {name : String} (free : keyword? s name = none) :
    keyword? s' name = none := by
  unfold keyword? at free ⊢
  split at free
  · cases free
  · split at free
    · cases free
    · split at free
      · cases free
      · split at free
        · cases free
        · simp only [*, ↓reduceIte]

theorem numeral_of_sound {digits : List Char} {s : Span} (sound : Token.Sound ⟨.numeral digits, s⟩) :
    ∃ value, Numeral.value? digits = some value ∧ numeral s digits = .literal s value := by
  have faultless := sound.2
  unfold Token.fault? at faultless
  unfold numeral
  cases value : Numeral.value? digits with
  | none => simp [value] at faultless
  | some v => exact ⟨v, rfl, rfl⟩

theorem reference_of_sound {scope name : String} {s : Span} (sound : Token.Sound ⟨.ref scope name, s⟩) :
    ∃ found : Scope, found.keyword = scope ∧ reference s scope name = .ref s found name := by
  have faultless := sound.2
  unfold Token.fault? at faultless
  unfold reference
  cases known : Scope.ofKeyword? scope with
  | none => simp [known] at faultless
  | some found => exact ⟨found, Scope.keyword_of_ofKeyword? known, rfl⟩

theorem numeral_readable {digits : List Char} {s : Span}
    (sound : Token.Sound ⟨.numeral digits, s⟩) : (numeral s digits).Readable := by
  obtain ⟨v, value, same⟩ := numeral_of_sound sound
  exact same ▸ .numeral s value

theorem reference_readable {scope name : String} {s : Span}
    (sound : Token.Sound ⟨.ref scope name, s⟩) : (reference s scope name).Readable := by
  obtain ⟨found, _, same⟩ := reference_of_sound sound
  exact same ▸ .ref s found sound.1

theorem moreItems_yields (yields : self.Yields Expr.Readable) (close : Lexeme) (fuel : Nat) :
    Reader.Yields (moreItems self close fuel) fun found => ∀ e ∈ found.1, e.Readable := by
  intro tokens found rest sound run
  fun_induction moreItems self close fuel tokens generalizing found rest with
  | case1 fuel s behind item after read items last left more ih =>
    cases run
    have head := yields (List.forall_mem_cons.mp sound).2 read
    have tail := ih head.2 more
    exact ⟨List.forall_mem_cons.mpr ⟨head.1, tail.1⟩, tail.2⟩
  | case2 => cases run
  | case3 => cases run
  | case4 fuel t behind apart closes =>
    cases run
    exact ⟨nofun, (List.forall_mem_cons.mp sound).2⟩
  | case5 => cases run
  | case6 => cases run

theorem items_yields (yields : self.Yields Expr.Readable) (close : Lexeme) :
    Reader.Yields (items self close) fun found => ∀ e ∈ found.1, e.Readable := by
  intro tokens found rest sound run
  unfold items at run
  split at run
  · split at run
    · cases run
      exact ⟨nofun, (List.forall_mem_cons.mp sound).2⟩
    · split at run
      · rename_i item after read
        have head := yields sound read
        split at run
        · rename_i items last left more
          cases run
          have tail := moreItems_yields yields close _ head.2 more
          exact ⟨List.forall_mem_cons.mpr ⟨head.1, tail.1⟩, tail.2⟩
        · cases run
      · cases run
  · cases run

theorem primary_yields (yields : self.Yields Expr.Readable) : (primary self).Yields Expr.Readable := by
  intro tokens e rest sound run
  unfold primary at run
  split at run
  · obtain ⟨here, sound⟩ := List.forall_mem_cons.mp sound
    split at run
    · rename_i found
      cases run
      exact ⟨keyword?_readable found, sound⟩
    · rename_i free
      split at run
      · split at run
        · rename_i args last left read
          cases run
          have found := items_yields yields .closeParen (List.forall_mem_cons.mp sound).2 read
          exact ⟨.call _ here.1 (keyword?_eq_none _ free) found.1, found.2⟩
        · cases run
      · cases run
  · obtain ⟨here, sound⟩ := List.forall_mem_cons.mp sound
    cases run
    exact ⟨numeral_readable here, sound⟩
  · cases run
    exact ⟨.string _ _, (List.forall_mem_cons.mp sound).2⟩
  · obtain ⟨here, sound⟩ := List.forall_mem_cons.mp sound
    cases run
    exact ⟨reference_readable here, sound⟩
  · split at run
    · rename_i read
      cases run
      have found := items_yields yields .closeBracket (List.forall_mem_cons.mp sound).2 read
      exact ⟨.list _ found.1, found.2⟩
    · cases run
  · split at run
    · rename_i read
      cases run
      have found := yields (List.forall_mem_cons.mp sound).2 read
      exact ⟨found.1, (List.forall_mem_cons.mp found.2).2⟩
    · cases run
  · cases run

theorem index?_yields (yields : self.Yields Expr.Readable) {base : Expr} (readable : base.Readable)
    (safe : Bool) : (index? self base safe).Yields Expr.Readable := by
  intro tokens e rest sound run
  unfold index? at run
  split at run
  · rename_i read
    cases run
    have found := yields sound read
    exact ⟨.index _ safe readable found.1, (List.forall_mem_cons.mp found.2).2⟩
  · cases run

theorem suffix?_yields (yields : self.Yields Expr.Readable) {base : Expr} (readable : base.Readable) :
    (suffix? self base).Yields Expr.Readable := by
  intro tokens e rest sound run
  unfold suffix? at run
  split at run
  · obtain ⟨named, sound⟩ := List.forall_mem_cons.mp (List.forall_mem_cons.mp sound).2
    cases run
    exact ⟨.field _ false readable named.1, sound⟩
  · obtain ⟨named, sound⟩ := List.forall_mem_cons.mp (List.forall_mem_cons.mp sound).2
    cases run
    exact ⟨.field _ true readable named.1, sound⟩
  · exact index?_yields yields readable false (List.forall_mem_cons.mp sound).2 run
  · exact index?_yields yields readable true
      (List.forall_mem_cons.mp (List.forall_mem_cons.mp sound).2).2 run
  · cases run
    exact ⟨.unary _ rfl readable, (List.forall_mem_cons.mp sound).2⟩
  · cases run

theorem suffixes_yields (yields : self.Yields Expr.Readable) {fuel : Nat} {e : Expr} {tokens : List Token}
    (readable : e.Readable) (sound : ∀ t ∈ tokens, t.Sound) :
    (suffixes self fuel e tokens).1.Readable ∧ ∀ t ∈ (suffixes self fuel e tokens).2, t.Sound := by
  fun_induction suffixes self fuel e tokens with
  | case1 => exact ⟨readable, sound⟩
  | case2 fuel e tokens e' rest found ih =>
    have next := suffix?_yields yields readable sound found
    exact ih next.1 next.2
  | case3 => exact ⟨readable, sound⟩

theorem signs_sound {tokens : List Token} (sound : ∀ t ∈ tokens, t.Sound) :
    (∀ sign ∈ (signs tokens).1, sign.1.arity = 1) ∧ ∀ t ∈ (signs tokens).2, t.Sound := by
  fun_induction signs tokens with
  | case1 s rest more left split ih =>
    rw [split] at ih
    have later := ih (List.forall_mem_cons.mp sound).2
    exact ⟨List.forall_mem_cons.mpr ⟨rfl, later.1⟩, later.2⟩
  | case2 s rest more left split ih =>
    rw [split] at ih
    have later := ih (List.forall_mem_cons.mp sound).2
    exact ⟨List.forall_mem_cons.mpr ⟨rfl, later.1⟩, later.2⟩
  | case3 => exact ⟨nofun, sound⟩

theorem applySigns_readable {signs : List (Operator × Span)} {e : Expr}
    (unary : ∀ sign ∈ signs, sign.1.arity = 1) (readable : e.Readable) : (applySigns signs e).Readable := by
  induction signs with
  | nil => exact readable
  | cons sign signs ih =>
    obtain ⟨here, later⟩ := List.forall_mem_cons.mp unary
    exact .unary _ here (ih later)

theorem operand_yields (yields : self.Yields Expr.Readable) : (operand self).Yields Expr.Readable := by
  intro tokens e rest sound run
  have signed := signs_sound sound
  unfold operand at run
  dsimp only at run
  split at run
  · rename_i read
    cases run
    have first := primary_yields yields signed.2 read
    exact ⟨applySigns_readable signed.1 (suffixes_yields yields first.1 first.2).1,
      (suffixes_yields yields first.1 first.2).2⟩
  · cases run

theorem chain_sound (yields : self.Yields Expr.Readable) {fuel : Nat} {tokens : List Token}
    (sound : ∀ t ∈ tokens, t.Sound) :
    (∀ pair ∈ (chain self fuel tokens).1, pair.1.arity = 2 ∧ pair.2.Readable) ∧
      ∀ t ∈ (chain self fuel tokens).2, t.Sound := by
  fun_induction chain self fuel tokens with
  | case1 fuel op s rest e after read more left split ih =>
    obtain ⟨here, behind⟩ := List.forall_mem_cons.mp sound
    have found := operand_yields yields behind read
    rw [split] at ih
    have later := ih found.2
    exact ⟨List.forall_mem_cons.mpr ⟨⟨here.1, found.1⟩, later.1⟩, later.2⟩
  | case2 => exact ⟨nofun, sound⟩
  | case3 => exact ⟨nofun, sound⟩

theorem binary_yields (yields : self.Yields Expr.Readable) : (binary self).Yields Expr.Readable := by
  intro tokens e rest sound run
  unfold binary at run
  split at run
  · rename_i read
    cases run
    have first := operand_yields yields sound read
    exact ⟨group_forall Expr.Readable.join first.1 (chain_sound yields first.2).1,
      (chain_sound yields first.2).2⟩
  · cases run

theorem branches_yields (yields : self.Yields Expr.Readable) :
    (branches self).Yields fun found => found.1.Readable ∧ found.2.Readable := by
  intro tokens found rest sound run
  unfold branches at run
  split at run
  · rename_i readYes
    have yes := yields sound readYes
    split at run
    · rename_i readNo
      cases run
      have no := yields (List.forall_mem_cons.mp yes.2).2 readNo
      exact ⟨⟨yes.1, no.1⟩, no.2⟩
    · cases run
  · cases run

theorem level_yields (stop : Nat) (yields : self.Yields Expr.Readable) :
    (level stop self).Yields Expr.Readable := by
  intro tokens e rest sound run
  unfold level at run
  split at run
  · rename_i readCondition
    have condition := binary_yields yields sound readCondition
    split at run
    · rename_i readBranches
      cases run
      have found := branches_yields yields (List.forall_mem_cons.mp condition.2).2 readBranches
      exact ⟨.choose _ condition.1 found.1.1 found.1.2, found.2⟩
    · cases run
      exact condition
  · exact binary_yields yields sound run

theorem expr_yields (stop depth : Nat) : (expr stop depth).Yields Expr.Readable := by
  induction depth with
  | zero => intro tokens e rest _ run; cases run
  | succ depth ih => exact level_yields stop ih

end Grammar

/-- Reading gives readable trees. -/
theorem read_readable {source : String} {e : Expr} (accepted : read source = .ok e) : e.Readable := by
  obtain ⟨tokens, matched, faultless⟩ := read_eq_ok_iff.mp accepted
  obtain ⟨scanned, whole⟩ := match?_eq_some_iff.mp matched
  have sound : ∀ t ∈ tokens, t.Sound := fun t member =>
    ⟨Token.scan?_wellFormed scanned t member, List.findSome?_eq_none_iff.mp faultless t member⟩
  unfold Grammar.whole? at whole
  split at whole
  · rename_i run
    cases whole
    exact (Grammar.expr_yields _ _ sound run).1
  · cases whole

end LazyExpr
