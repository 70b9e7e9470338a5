import LazyExpr.Proofs.Number.Numerals
import LazyExpr.Proofs.Number.Sign
import LazyExpr.Proofs.Syntax.Erasure
import LazyExpr.Proofs.Syntax.Placing
import LazyExpr.Tree.Print

namespace LazyExpr

namespace Expr

mutual

/-- The values of the literals in an expression. -/
def literals : Expr → List Value
  | null _ | ref _ _ _ => []
  | literal _ value => [value]
  | list _ items => literalsOfAll items
  | field _ base _ _ => literals base
  | index _ base key _ => literals base ++ literals key
  | coalesce _ left right => literals left ++ literals right
  | choose _ condition yes no => literals condition ++ literals yes ++ literals no
  | binary _ _ left right => literals left ++ literals right
  | unary _ _ operand => literals operand
  | call _ _ args => literalsOfAll args

def literalsOfAll : List Expr → List Value
  | [] => []
  | e :: rest => literals e ++ literalsOfAll rest

end

/-- The operands of the operator at the root, each with the side it stands on. -/
def operands : Expr → List (Side × Expr)
  | unary _ op operand => [(if op.isPostfix then .left else .right, operand)]
  | binary _ _ left right | coalesce _ left right => [(.left, left), (.right, right)]
  | choose _ condition yes no => [(.left, condition), (.right, yes), (.right, no)]
  | null _ | literal _ _ | list _ _ | ref _ _ _ | field _ _ _ _ | index _ _ _ _ | call _ _ _ => []

theorem operator?_printable (e : Expr) : e.printable.operator? = e.operator? := by
  cases e with
  | literal s value => cases value <;> rfl
  | _ => rfl

theorem mem_literalsOfAll {items : List Expr} {v : Value} :
    v ∈ literalsOfAll items ↔ ∃ e ∈ items, v ∈ e.literals := by
  induction items with
  | nil => simp [literalsOfAll]
  | cons first rest ih => simp [literalsOfAll, ih]

end Expr

/-- The text is the expression by the rules of the grammar, spans left out. -/
def Spells (rank : Rank) (text : String) (e : Expr) : Prop := ∃ ls, Writes text ls ∧ Phrase rank ls e

namespace Spells

variable {text : String} {e : Expr}

theorem parens (spells : Spells .whole text e) : Spells .member ("(" ++ text ++ ")") e := by
  obtain ⟨ls, writes, phrase⟩ := spells
  exact ⟨_, writes.parens, .ofPrimary (.parens phrase)⟩

theorem whole {p : Printable} (spells : Spells p.rank p.render e) : Spells .whole p.render e := by
  obtain ⟨ls, writes, phrase⟩ := spells
  exact ⟨ls, writes, phrase.whole⟩

/-- An operand as it is printed, with parentheses or bare, is what the rules ask for in its place. -/
theorem operand {p : Printable} (spells : Spells p.rank p.render e) (regular : p.Regular) (op : Operator)
    (side : Side) :
    Spells (op.slot side) (Printable.parenthesized (Printable.isProtected op side p) p.render) e := by
  unfold Printable.parenthesized
  cases guarded : Printable.isProtected op side p with
  | true =>
    obtain ⟨ls, writes, phrase⟩ := spells.whole.parens
    exact ⟨ls, writes, phrase.slot_of_member op side⟩
  | false =>
    obtain ⟨ls, writes, phrase⟩ := spells
    exact ⟨ls, writes, phrase.slot_of_bare regular guarded⟩

/-- So is the base of a member access. -/
theorem base {p : Printable} (spells : Spells p.rank p.render e) :
    Spells .member (Printable.parenthesized p.isProtectedBase p.render) e := by
  unfold Printable.parenthesized
  cases guarded : p.isProtectedBase with
  | true => exact spells.whole.parens
  | false =>
    cases p with
    | leaf => exact spells
    | atom => exact spells
    | _ => cases guarded

/-- All of the items are, one by one. -/
theorem each {items : List Expr} (spells : ∀ e ∈ items, Spells .whole e.print e.withoutSpans) :
    ∃ found : List (List Lexeme × Expr), (∀ item ∈ found, Phrase .whole item.1 item.2) ∧
      found.map (·.2) = Expr.listWithoutSpans items ∧
      List.Forall₂ Writes (Expr.printAll items) (found.map (·.1)) := by
  induction items with
  | nil => exact ⟨[], nofun, rfl, .nil⟩
  | cons first rest ih =>
    obtain ⟨⟨ls, writes, phrase⟩, others⟩ := List.forall_mem_cons.mp spells
    obtain ⟨found, phrases, trees, texts⟩ := ih others
    refine ⟨(ls, first.withoutSpans) :: found, List.forall_mem_cons.mpr ⟨phrase, phrases⟩, ?_, .cons writes texts⟩
    rw [List.map_cons, trees, Expr.listWithoutSpans]

end Spells

/-- The text is an expression with that operator at its root, and there are no parentheses around it. -/
def SpellsOperation (op : Operator) (text : String) (e : Expr) : Prop := ∃ ls, Writes text ls ∧ Operation op ls e

namespace SpellsOperation

variable {op : Operator} {text textLeft textRight : String} {e left right : Expr}

theorem spells (spells : SpellsOperation op text e) : Spells op.rank text e := by
  obtain ⟨ls, writes, operation⟩ := spells
  exact ⟨ls, writes, operation.phrase⟩

/-- An operand with its sign in front of it or its mark behind it. -/
theorem unary (arity : op.arity = 1)
    (spells : Spells (op.slot (if op.isPostfix then .left else .right)) text e) :
    SpellsOperation op (if op.isPostfix then text ++ op.token else op.token ++ text) (.unary .synthetic op e) := by
  obtain ⟨ls, writes, phrase⟩ := spells
  cases op with
  | assertPresent => exact ⟨_, writes.assert, .assert phrase⟩
  | negate => exact ⟨_, writes.minus, .negate phrase⟩
  | not => exact ⟨_, writes.bang, .not phrase⟩
  | _ => cases arity

/-- Two operands with their operator between them. -/
theorem join (infixed : op.arity = 2) (spells : Spells (op.slot .left) textLeft left)
    (spellsRight : Spells (op.slot .right) textRight right) :
    SpellsOperation op (textLeft ++ " " ++ op.token ++ " " ++ textRight) (.join op left right) := by
  rw [Operator.slot_left infixed] at spells
  rw [Operator.slot_right infixed] at spellsRight
  obtain ⟨ls, writes, phrase⟩ := spells
  obtain ⟨rs, writesRight, phraseRight⟩ := spellsRight
  exact ⟨_, writes.infixed writesRight infixed, .binary infixed phrase phraseRight⟩

/-- A condition with its branches. -/
theorem choose {textYes textNo : String} {yes no : Expr} (spells : Spells (Operator.choose.slot .left) text e)
    (spellsYes : Spells (Operator.choose.slot .right) textYes yes)
    (spellsNo : Spells (Operator.choose.slot .right) textNo no) :
    SpellsOperation .choose (text ++ " ? " ++ textYes ++ " : " ++ textNo) (.choose .synthetic e yes no) := by
  obtain ⟨cs, writes, phrase⟩ := spells
  obtain ⟨ys, writesYes, phraseYes⟩ := spellsYes
  obtain ⟨ns, writesNo, phraseNo⟩ := spellsNo
  exact ⟨_, writes.choice writesYes writesNo, .choose phrase phraseYes phraseNo⟩

end SpellsOperation

/-- The printed text spells the expression, as what its printable is by the rules. -/
structure Expr.Spelled (e : Expr) : Prop where
  spells : Spells e.printable.rank e.print e.withoutSpans
  regular : e.printable.Regular

theorem Expr.Spelled.operand {e : Expr} (spelled : e.Spelled) (op : Operator) (side : Side) :
    Spells (op.slot side) (Printable.parenthesized (Printable.isProtected op side e.printable) e.print)
      e.withoutSpans :=
  spelled.spells.operand spelled.regular op side

theorem SpellsOperation.spelled {e : Expr} {op : Operator} (spells : SpellsOperation op e.print e.withoutSpans)
    (root : e.operator? = some op) (regular : e.printable.Regular) : e.Spelled := by
  refine ⟨?_, regular⟩
  rw [regular.rank_eq (e.operator?_printable.trans root)]
  exact spells.spells

theorem isWord_null : IsWord "null" := ⟨'n', "ull".toList, rfl, by decide, List.all_eq_true.mp rfl⟩

theorem isWord_undefined : IsWord "undefined" := ⟨'u', "ndefined".toList, rfl, by decide, List.all_eq_true.mp rfl⟩

theorem isWord_bool (b : Bool) : IsWord (if b then "true" else "false") := by
  cases b with
  | true => exact ⟨'t', "rue".toList, rfl, by decide, List.all_eq_true.mp rfl⟩
  | false => exact ⟨'f', "alse".toList, rfl, by decide, List.all_eq_true.mp rfl⟩

/-- The value, if it is a double, is finite. -/
def Value.Legible (value : Value) : Prop := ∀ x, value = .float x → (Binary.ofFloat x).IsFinite

theorem Expr.legible_of_finite {e : Expr} (finite : ∀ x, .float x ∈ e.literals → (Binary.ofFloat x).IsFinite) :
    ∀ v ∈ e.literals, v.Legible := by
  rintro v member x rfl
  exact finite x member

theorem Value.spells_numeral {digits : List Char} {value : Value} (read : Numeral.value? digits = some value)
    (legible : value.Legible) :
    Spells value.printable.rank value.printable.render (.literal .synthetic value) ∧ value.printable.Regular := by
  rcases Numeral.value?_cases read with ⟨n, rfl, unsigned⟩ | ⟨n, places, rfl⟩
  · obtain ⟨numeral, back⟩ := Numeral.value?_word unsigned
    exact ⟨⟨_, Writes.numeral numeral, .ofPrimary (.numeral back)⟩, trivial⟩
  · have finite := legible _ rfl
    cases decoded : Binary.ofFloat (Float.ofScientific n true places) with
    | nan => rw [decoded] at finite; exact finite.elim
    | infinite negative => rw [decoded] at finite; exact finite.elim
    | finite negative mantissa exponent =>
      cases Binary.negative_of_signClear (signClear_ofScientific n places) decoded
      have back := readsBack_of_unsigned decoded
      exact ⟨⟨_, Writes.numeral (isNumeral_floatNumeral decoded), .ofPrimary (.numeral back)⟩, trivial⟩

/-- An operator is printed as a text that spells it if its operands are. -/
theorem Expr.Readable.spells_operation {e : Expr} {op : Operator} (readable : e.Readable)
    (root : e.operator? = some op) (spelled : ∀ operand ∈ e.operands, operand.2.Spelled) :
    SpellsOperation op e.print e.withoutSpans := by
  cases readable with
  | @coalesce s left right =>
    cases root
    obtain ⟨spelledLeft, spelledRight, _⟩ := by simpa only [operands, List.forall_mem_cons] using spelled
    rw [coalesce_withoutSpans]
    exact .join rfl (spelledLeft.operand _ _) (spelledRight.operand _ _)
  | choose =>
    cases root
    obtain ⟨spelled, spelledYes, spelledNo, _⟩ := by simpa only [operands, List.forall_mem_cons] using spelled
    exact .choose (spelled.operand _ _) (spelledYes.operand _ _) (spelledNo.operand _ _)
  | @binary s inner left right infixed plain =>
    cases root
    obtain ⟨spelledLeft, spelledRight, _⟩ := by simpa only [operands, List.forall_mem_cons] using spelled
    rw [binary_withoutSpans s plain]
    exact .join infixed (spelledLeft.operand _ _) (spelledRight.operand _ _)
  | @unary s _ operand arity =>
    cases root
    obtain ⟨spelled, _⟩ := by simpa only [operands, List.forall_mem_cons] using spelled
    show SpellsOperation op (Printable.unary op operand.printable).render _
    rw [withoutSpans, Printable.render_unary]
    exact .unary arity (spelled.operand op _)
  | _ => cases root

/-- An expression that can be read is printed as a text that spells it. -/
theorem Expr.Readable.spells {e : Expr} (readable : e.Readable) (legible : ∀ v ∈ e.literals, v.Legible) :
    e.Spelled := by
  induction readable with
  | null => exact ⟨⟨_, Writes.word isWord_null, .ofPrimary .null⟩, trivial⟩
  | undefined => exact ⟨⟨_, Writes.word isWord_undefined, .ofPrimary .undefined⟩, trivial⟩
  | bool s b => exact ⟨⟨_, Writes.word (isWord_bool b), .ofPrimary (.bool b)⟩, trivial⟩
  | numeral s read =>
    have spelled := Value.spells_numeral read (legible _ (List.mem_singleton_self _))
    exact ⟨spelled.1, spelled.2⟩
  | string s content => exact ⟨⟨_, Writes.quoted content, .ofPrimary (.quoted content)⟩, trivial⟩
  | @list s items _ ih =>
    have spells : ∀ e ∈ items, Spells .whole e.print e.withoutSpans := fun e member =>
      (ih e member fun v inside => legible v (mem_literalsOfAll.mpr ⟨e, member, inside⟩)).1.whole
    obtain ⟨found, phrases, trees, texts⟩ := Spells.each spells
    refine ⟨⟨_, Writes.list texts, .ofPrimary ?_⟩, trivial⟩
    rw [withoutSpans, ← trees]
    exact .list phrases
  | ref s scope word => exact ⟨⟨_, Writes.ref scope word, .ofPrimary (.ref scope _)⟩, trivial⟩
  | @field s base name safe _ word ih =>
    obtain ⟨ls, writes, phrase⟩ := (ih legible).1.base
    exact ⟨⟨_, writes.field word safe, .field name safe phrase⟩, trivial⟩
  | @index s base key safe _ _ ihBase ihKey =>
    obtain ⟨legibleBase, legibleKey⟩ := List.forall_mem_append.mp legible
    obtain ⟨ls, writes, phrase⟩ := (ihBase legibleBase).1.base
    obtain ⟨ks, writesKey, phraseKey⟩ := (ihKey legibleKey).1.whole
    exact ⟨⟨_, writes.index writesKey safe, .index safe phrase phraseKey⟩, trivial⟩
  | @coalesce s left right readable readableRight ih ihRight =>
    obtain ⟨legible, legibleRight⟩ := List.forall_mem_append.mp legible
    have spells := (Readable.coalesce s readable readableRight).spells_operation rfl
      (List.forall_mem_cons.mpr ⟨ih legible, List.forall_mem_singleton.mpr (ihRight legibleRight)⟩)
    exact spells.spelled rfl rfl
  | @choose s condition yes no readable readableYes readableNo ih ihYes ihNo =>
    obtain ⟨legibleFront, legibleNo⟩ := List.forall_mem_append.mp legible
    obtain ⟨legible, legibleYes⟩ := List.forall_mem_append.mp legibleFront
    have spells := (Readable.choose s readable readableYes readableNo).spells_operation rfl
      (List.forall_mem_cons.mpr ⟨ih legible, List.forall_mem_cons.mpr ⟨ihYes legibleYes,
        List.forall_mem_singleton.mpr (ihNo legibleNo)⟩⟩)
    exact spells.spelled rfl rfl
  | @binary s op left right infixed plain readable readableRight ih ihRight =>
    obtain ⟨legible, legibleRight⟩ := List.forall_mem_append.mp legible
    have spells := (Readable.binary s infixed plain readable readableRight).spells_operation rfl
      (List.forall_mem_cons.mpr ⟨ih legible, List.forall_mem_singleton.mpr (ihRight legibleRight)⟩)
    exact spells.spelled rfl infixed
  | @unary s op operand arity readable ih =>
    have spells := (Readable.unary s arity readable).spells_operation rfl
      (List.forall_mem_singleton.mpr (ih legible))
    exact spells.spelled rfl arity
  | @call s name args word free _ ih =>
    have spells : ∀ e ∈ args, Spells .whole e.print e.withoutSpans := fun e member =>
      (ih e member fun v inside => legible v (mem_literalsOfAll.mpr ⟨e, member, inside⟩)).1.whole
    obtain ⟨found, phrases, trees, texts⟩ := Spells.each spells
    refine ⟨⟨_, Writes.call word texts, .ofPrimary ?_⟩, trivial⟩
    rw [withoutSpans, ← trees]
    exact .call free phrases

end LazyExpr
