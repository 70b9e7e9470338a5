import LazyExpr.Proofs.Syntax.Regrouping
import LazyExpr.Proofs.Syntax.RoundTrip

namespace LazyExpr

/-- An operator with the texts of its operands. -/
def Operator.write (op : Operator) : List String → String
  | [operand] => if op.isPostfix then operand ++ op.token else op.token ++ operand
  | [left, right] => left ++ " " ++ op.token ++ " " ++ right
  | [condition, yes, no] => condition ++ " ? " ++ yes ++ " : " ++ no
  | _ => ""

namespace Expr

/-- The expressions that an expression is made of directly. -/
def children : Expr → List Expr
  | null _ | literal _ _ | ref _ _ _ => []
  | list _ items => items
  | field _ base _ _ => [base]
  | index _ base key _ => [base, key]
  | coalesce _ left right | binary _ _ left right => [left, right]
  | choose _ condition yes no => [condition, yes, no]
  | unary _ _ operand => [operand]
  | call _ _ args => args

/-- The node is the expression itself or stands somewhere inside it. -/
inductive Occurs (node : Expr) : Expr → Prop
  | here : Occurs node node
  | inside {e child : Expr} : child ∈ e.children → Occurs node child → Occurs node e

/-- The operands as they are printed, in parentheses where these are called for. -/
def operandTexts (op : Operator) (e : Expr) : List String :=
  e.operands.map fun operand =>
    Printable.parenthesized (Printable.isProtected op operand.1 operand.2.printable) operand.2.print

/-- The text of a node with its operand at position `i` written without parentheses. -/
def printBare (e : Expr) (i : Nat) : String :=
  match e.operator?, e.operands[i]? with
  | some op, some operand => op.write ((e.operandTexts op).set i operand.2.print)
  | _, _ => e.print

theorem print_eq_write {e : Expr} {op : Operator} (root : e.operator? = some op) :
    e.print = op.write (e.operandTexts op) := by
  cases e with
  | unary s inner operand =>
    cases root
    exact Printable.render_unary op operand.printable
  | coalesce | choose | binary =>
    cases root
    rfl
  | _ => cases root

theorem mem_children_of_operands {e : Expr} {operand : Side × Expr} (member : operand ∈ e.operands) :
    operand.2 ∈ e.children := by
  cases e <;> simp_all [operands, children] <;> grind

theorem literals_of_child {e child : Expr} (member : child ∈ e.children) :
    ∀ v ∈ child.literals, v ∈ e.literals := by
  intro v inside
  cases e <;> simp_all [children, literals, mem_literalsOfAll] <;> grind

theorem Readable.child {e child : Expr} (readable : e.Readable) (member : child ∈ e.children) : child.Readable := by
  cases readable <;> simp_all [children] <;> grind

theorem Occurs.readable {node e : Expr} (occurs : node.Occurs e) (readable : e.Readable) : node.Readable := by
  induction occurs with
  | here => exact readable
  | inside member _ ih => exact ih (readable.child member)

theorem Occurs.literals {node e : Expr} (occurs : node.Occurs e) : ∀ v ∈ node.literals, v ∈ e.literals := by
  induction occurs with
  | here => exact fun _ member => member
  | inside member _ ih => exact fun v inside => literals_of_child member v (ih v inside)

end Expr

/-- A value that a numeral stands for is printed without a sign. -/
theorem Value.printable_numeral {digits : List Char} {value : Value} (read : Numeral.value? digits = some value) :
    ∃ text, value.printable = .leaf text .primary := by
  rcases Numeral.value?_cases read with ⟨n, rfl, unsigned⟩ | ⟨n, places, rfl⟩
  · exact ⟨_, congrArg _ (if_neg (by simpa using unsigned))⟩
  · have positive := not_lt_zero_of_signClear (signClear_ofScientific n places)
    exact ⟨_, congrArg _ (if_neg (by simpa using positive))⟩

namespace Expr.Readable

variable {e : Expr} {op : Operator} {side : Side}

/-- What is not an operator binds tighter than all of them. -/
theorem printable_leaf (readable : e.Readable) (rootless : e.operator? = none) :
    ∃ text, e.printable = .leaf text .primary := by
  cases readable with
  | numeral s read => exact Value.printable_numeral read
  | coalesce | choose | binary | unary => cases rootless
  | _ => exact ⟨_, rfl⟩

/-- An operand in parentheses has an operator that is looser, or as tight and grouping the other way. -/
theorem operator_of_protected (readable : e.Readable) (guarded : Printable.isProtected op side e.printable) :
    ∃ inner, e.operator? = some inner ∧
      (inner.level < op.level ∨ inner.level = op.level ∧ side.regroups inner.associativity) := by
  cases root : e.operator? with
  | none =>
    obtain ⟨text, leaf⟩ := readable.printable_leaf root
    rw [leaf] at guarded
    cases op <;> cases guarded
  | some inner =>
    have rooted : e.printable.operator? = some inner := e.operator?_printable.trans root
    refine ⟨inner, rfl, ?_⟩
    cases shape : e.printable <;> rw [shape] at guarded rooted <;> cases rooted <;>
      simpa [Printable.isProtected] using guarded

/-- An operator in a text that was read is printed as that operator with its operands. -/
theorem spells_root (readable : e.Readable) (legible : ∀ v ∈ e.literals, v.Legible) (root : e.operator? = some op) :
    SpellsOperation op e.print e.withoutSpans := by
  refine readable.spells_operation root fun operand member => ?_
  have child := mem_children_of_operands member
  exact (readable.child child).spells fun v inside => legible v (literals_of_child child v inside)

end Expr.Readable

namespace SpellsOperation

variable {inner op : Operator} {text other : String} {e r : Expr}

theorem whole (spells : SpellsOperation op text e) : Spells .whole text e := by
  obtain ⟨ls, writes, operation⟩ := spells
  exact ⟨ls, writes, operation.phrase.whole⟩

/-- A bare operand in front of the assertion loses its own last operand to it. -/
theorem bare_assert (spells : SpellsOperation inner text e) (loose : inner ≠ .assertPresent) :
    ∃ e', Spells .whole (text ++ "!") e' ∧ e' ≠ .unary .synthetic .assertPresent e := by
  obtain ⟨ls, writes, operation⟩ := spells
  obtain ⟨e', longer⟩ := operation.suffix_behind (fun phrase => ⟨_, .assert phrase⟩) loose
  have whole : SpellsOperation inner (text ++ "!") e' := ⟨_, writes.assert, longer⟩
  exact ⟨e', whole.whole, longer.ne_of_operator rfl loose⟩

/-- A bare operand behind a sign loses its own first operand to it. -/
theorem bare_sign (prefixed : op = .negate ∨ op = .not) (spells : SpellsOperation inner text e)
    (loose : inner.level < Operator.negate.level) :
    ∃ e', Spells .whole (op.token ++ text) e' ∧ e' ≠ .unary .synthetic op e := by
  obtain ⟨ls, writes, operation⟩ := spells
  have apart : inner ≠ op := by
    rintro rfl
    rcases prefixed with rfl | rfl
    · exact absurd loose (by decide)
    · exact absurd loose (by decide)
  rcases prefixed with rfl | rfl
  · obtain ⟨e', longer⟩ := operation.sign_ahead (.inr rfl) loose
    have whole : SpellsOperation inner ("-" ++ text) e' := ⟨_, writes.minus, longer⟩
    exact ⟨e', whole.whole, longer.ne_of_operator rfl apart⟩
  · obtain ⟨e', longer⟩ := operation.sign_ahead (.inl rfl) loose
    have whole : SpellsOperation inner ("!" ++ text) e' := ⟨_, writes.bang, longer⟩
    exact ⟨e', whole.whole, longer.ne_of_operator rfl apart⟩

/-- A bare operand on the left of a tighter operator loses its own last operand to it. -/
theorem bare_left (infixed : op.arity = 2) (spells : SpellsOperation inner text e) (loose : inner.level < op.level)
    (spellsRight : Spells (op.slot .right) other r) :
    ∃ e', Spells .whole (text ++ " " ++ op.token ++ " " ++ other) e' ∧ e' ≠ .join op e r := by
  rw [Operator.slot_right infixed] at spellsRight
  obtain ⟨ls, writes, operation⟩ := spells
  obtain ⟨rs, writesRight, phrase⟩ := spellsRight
  obtain ⟨e', longer⟩ := operation.infix_behind infixed loose phrase
  have whole : SpellsOperation inner (text ++ " " ++ op.token ++ " " ++ other) e' :=
    ⟨_, writes.infixed writesRight infixed, longer⟩
  refine ⟨e', whole.whole, longer.ne_of_operator (Expr.operator?_join _ _ _) ?_⟩
  rintro rfl
  exact absurd loose (Nat.lt_irrefl _)

/-- A bare operand on the right of an operator that binds as tightly loses its own first operand to it. -/
theorem bare_right (infixed : op.arity = 2) (spellsLeft : Spells (op.slot .left) other r)
    (spells : SpellsOperation inner text e) (loose : inner.level ≤ op.level) :
    ∃ e', Spells .whole (other ++ " " ++ op.token ++ " " ++ text) e' ∧ e' ≠ .join op r e := by
  rw [Operator.slot_left infixed] at spellsLeft
  obtain ⟨ls, writes, operation⟩ := spells
  obtain ⟨rs, writesLeft, phrase⟩ := spellsLeft
  obtain ⟨e', longer, apart⟩ := operation.infix_ahead infixed loose phrase
  have whole : SpellsOperation inner (other ++ " " ++ op.token ++ " " ++ text) e' :=
    ⟨_, writesLeft.infixed writes infixed, longer⟩
  exact ⟨e', whole.whole, apart⟩

/-- A bare conditional in front of a question mark loses its last branch to it. -/
theorem bare_condition (spells : SpellsOperation .choose text e) {textYes textNo : String} {yes no : Expr}
    (spellsYes : Spells .whole textYes yes) (spellsNo : Spells .whole textNo no) :
    ∃ e', Spells .whole (text ++ " ? " ++ textYes ++ " : " ++ textNo) e' ∧ e' ≠ .choose .synthetic e yes no := by
  obtain ⟨cs, writes, operation⟩ := spells
  obtain ⟨ys, writesYes, phraseYes⟩ := spellsYes
  obtain ⟨ns, writesNo, phraseNo⟩ := spellsNo
  obtain ⟨e', longer, apart⟩ := operation.branches_behind phraseYes phraseNo
  have whole : SpellsOperation .choose (text ++ " ? " ++ textYes ++ " : " ++ textNo) e' :=
    ⟨_, writes.choice writesYes writesNo, longer⟩
  exact ⟨e', whole.whole, apart⟩

end SpellsOperation

/-- The text is read, and as one expression only. -/
theorem Spells.reads_iff {text : String} {e other : Expr} (spells : Spells .whole text e) :
    (∃ again, LazyExpr.read text = .ok again ∧ again.withoutSpans = other) ↔ e = other := by
  obtain ⟨found, accepted, same⟩ := spells.read
  constructor
  · rintro ⟨again, read, rfl⟩
    rw [accepted] at read
    cases read
    exact same.symm
  · rintro rfl
    exact ⟨found, accepted, same⟩

namespace Expr

variable {e operand : Expr} {op : Operator} {side : Side} {i : Nat}

theorem printBare_eq (root : e.operator? = some op) (position : e.operands[i]? = some (side, operand)) :
    e.printBare i = op.write ((e.operandTexts op).set i operand.print) := by
  simp only [printBare, root, position]

/-- Where an operand is printed without parentheses anyway, leaving them out changes nothing. -/
theorem printBare_of_not_protected (root : e.operator? = some op)
    (position : e.operands[i]? = some (side, operand))
    (bare : Printable.isProtected op side operand.printable = false) : e.printBare i = e.print := by
  have printed : (e.operandTexts op)[i]? = some operand.print := by
    simp [operandTexts, position, bare, Printable.parenthesized]
  rw [printBare_eq root position, print_eq_write root]
  congr 1
  apply List.ext_getElem?
  grind

/-- Of two operands one that is printed in parentheses cannot do without them. -/
theorem bare_operand_of_join {left right : Expr} (infixed : op.arity = 2) (readable : left.Readable)
    (readableRight : right.Readable) (legible : ∀ v ∈ left.literals, v.Legible)
    (legibleRight : ∀ v ∈ right.literals, v.Legible)
    (position : [(Side.left, left), (Side.right, right)][i]? = some (side, operand))
    (guarded : Printable.isProtected op side operand.printable) :
    ∃ e', Spells .whole (op.write
        ([Printable.parenthesized (Printable.isProtected op .left left.printable) left.print,
          Printable.parenthesized (Printable.isProtected op .right right.printable) right.print].set i
          operand.print)) e' ∧
      e' ≠ .join op left.withoutSpans right.withoutSpans := by
  rcases i with _ | _ | i
  · cases position
    obtain ⟨inner, root, loose⟩ := readable.operator_of_protected guarded
    have looser : inner.level < op.level := by
      refine loose.resolve_right ?_
      rintro ⟨level, regroups⟩
      rw [Operator.associativity_of_level level, Operator.associativity_of_binary infixed] at regroups
      cases regroups
    have spelledRight := readableRight.spells legibleRight
    exact (readable.spells_root legible root).bare_left infixed looser (spelledRight.operand op .right)
  · cases position
    obtain ⟨inner, root, loose⟩ := readableRight.operator_of_protected guarded
    have notTighter : inner.level ≤ op.level := by
      rcases loose with loose | ⟨level, _⟩
      · exact Nat.le_of_lt loose
      · exact Nat.le_of_eq level
    have spelled := readable.spells legible
    exact (readableRight.spells_root legibleRight root).bare_right infixed (spelled.operand op .left) notTighter
  · cases position

/-- An operand that is printed in parentheses cannot do without them. -/
theorem Readable.bare_operand (readable : e.Readable) (legible : ∀ v ∈ e.literals, v.Legible)
    (root : e.operator? = some op) (position : e.operands[i]? = some (side, operand))
    (guarded : Printable.isProtected op side operand.printable) :
    ∃ e', Spells .whole (e.printBare i) e' ∧ e' ≠ e.withoutSpans := by
  rw [printBare_eq root position]
  have member : operand ∈ e.children := mem_children_of_operands (List.mem_of_getElem? position)
  obtain ⟨inner, innerRoot, loose⟩ := (readable.child member).operator_of_protected guarded
  have spells : SpellsOperation inner operand.print operand.withoutSpans :=
    (readable.child member).spells_root (fun v inside => legible v (literals_of_child member v inside)) innerRoot
  cases readable with
  | @coalesce s left right readable readableRight =>
    cases root
    obtain ⟨legible, legibleRight⟩ := List.forall_mem_append.mp legible
    rw [coalesce_withoutSpans]
    exact bare_operand_of_join rfl readable readableRight legible legibleRight position guarded
  | @binary s _ left right infixed plain readable readableRight =>
    cases root
    obtain ⟨legible, legibleRight⟩ := List.forall_mem_append.mp legible
    rw [binary_withoutSpans s plain]
    exact bare_operand_of_join infixed readable readableRight legible legibleRight position guarded
  | @choose s condition yes no readable readableYes readableNo =>
    cases root
    have floor : ¬ inner.level < Operator.choose.level := Nat.not_lt.mpr inner.lowest_le_level
    obtain ⟨level, regroups⟩ := loose.resolve_left floor
    rw [Operator.associativity_of_level level] at regroups
    obtain ⟨_, legibleNo⟩ := List.forall_mem_append.mp legible
    obtain ⟨_, legibleYes⟩ := List.forall_mem_append.mp (List.forall_mem_append.mp legible).1
    rcases i with _ | _ | _ | i
    · cases position
      have same : inner = .choose := by
        revert level
        cases inner <;> decide
      subst same
      have spelledYes := (readableYes.spells legibleYes).operand .choose .right
      have spelledNo := (readableNo.spells legibleNo).operand .choose .right
      exact spells.bare_condition spelledYes spelledNo
    · cases position
      cases regroups
    · cases position
      cases regroups
    · cases position
  | @unary s _ operand arity readable =>
    cases root
    rcases i with _ | i
    · cases position
      have below : inner ≠ .assertPresent ∧ (op ≠ .assertPresent → inner.level < Operator.negate.level) := by
        revert loose
        cases op <;> cases inner <;> decide
      cases op with
      | assertPresent => exact spells.bare_assert below.1
      | negate => exact spells.bare_sign (.inl rfl) (below.2 nofun)
      | not => exact spells.bare_sign (.inr rfl) (below.2 nofun)
      | _ => cases arity
    · cases position
  | _ => cases root

end Expr

/-- In an expression that was read every operand is printed in parentheses exactly if without them its node
would not be read as it is. -/
theorem isProtected_iff_needed {source : String} {e : Expr} (accepted : read source = .ok e)
    (finite : ∀ x, .float x ∈ e.literals → (Binary.ofFloat x).IsFinite)
    {node operand : Expr} (occurs : node.Occurs e) {op : Operator} (root : node.operator? = some op) {i : Nat}
    {side : Side} (position : node.operands[i]? = some (side, operand)) :
    Printable.isProtected op side operand.printable = true ↔
      ¬ ∃ again, read (node.printBare i) = .ok again ∧ again.withoutSpans = node.withoutSpans := by
  have readable : node.Readable := occurs.readable (read_readable accepted)
  have legible := Expr.legible_of_finite fun x member => finite x (occurs.literals _ member)
  cases guarded : Printable.isProtected op side operand.printable with
  | true =>
    obtain ⟨e', spells, apart⟩ := readable.bare_operand legible root position guarded
    rw [spells.reads_iff]
    exact iff_of_true rfl apart
  | false =>
    have spells : Spells .whole node.print node.withoutSpans := (readable.spells legible).spells.whole
    rw [Expr.printBare_of_not_protected root position guarded, spells.reads_iff]
    exact iff_of_false nofun (not_not_intro rfl)

theorem isProtected_iff_needed_signed :
    let operand : Expr := .unary ⟨1, 5⟩ .negate (.literal ⟨2, 5⟩ (.float 1.5))
    let e : Expr := .unary ⟨1, 7⟩ .assertPresent operand
    read "(-1.5)!" = .ok e ∧ (∀ x, .float x ∈ e.literals → (Binary.ofFloat x).IsFinite) ∧
      e.operator? = some .assertPresent ∧ e.operands[0]? = some (.left, operand) ∧
      (Printable.isProtected .assertPresent .left operand.printable = true ↔
        ¬ ∃ again, read (e.printBare 0) = .ok again ∧ again.withoutSpans = e.withoutSpans) := by
  intro operand e
  let tokens : List Token := [⟨.openParen, ⟨0, 1⟩⟩, ⟨.operator .minus, ⟨1, 2⟩⟩, ⟨.numeral ['1', '.', '5'], ⟨2, 5⟩⟩,
    ⟨.closeParen, ⟨5, 6⟩⟩, ⟨.bang, ⟨6, 7⟩⟩]
  have scanned : Token.all? "(-1.5)!".toList = some tokens := rfl
  have tree : Grammar.whole? (byteSize "(-1.5)!".toList) tokens = some e := rfl
  have faultless : tokens.findSome? Token.fault? = none := rfl
  have accepted : read "(-1.5)!" = .ok e := by
    simp only [read, match?, scanned, tree, Option.map_some, faultless]
  have finite : ∀ x, .float x ∈ e.literals → (Binary.ofFloat x).IsFinite := by
    intro x member
    have same : x = 1.5 := Value.float.inj (List.mem_singleton.mp member)
    rw [same, Binary.ofFloat_three_halves]
    trivial
  have root : e.operator? = some .assertPresent := rfl
  have position : e.operands[0]? = some (.left, operand) := rfl
  exact ⟨accepted, finite, root, position, isProtected_iff_needed accepted finite .here root position⟩

end LazyExpr
