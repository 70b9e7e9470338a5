import LazyExpr.Proofs.Number.Negation
import LazyExpr.Proofs.Syntax.RoundTrip

namespace LazyExpr

/-- The values that a host may put into a tree as literals: no records, and doubles only if they are finite. -/
inductive Value.Plain : Value → Prop
  | null : Plain .null
  | undefined : Plain .undefined
  | bool (b : Bool) : Plain (.bool b)
  | int (n : Word) : Plain (.int n)
  | float {x : Float} : (Binary.ofFloat x).IsFinite → Plain (.float x)
  | string (s : String) : Plain (.string s)
  | list {items : List Value} : (∀ v ∈ items, Plain v) → Plain (.list items)

/-- The integer is the value or stands somewhere in it. -/
inductive Value.Holds (n : Word) : Value → Prop
  | int : Holds n (.int n)
  | list {items : List Value} {v : Value} : v ∈ items → Holds n v → Holds n (.list items)

/-- The trees that a host can build: names are identifiers, no call has the name of a keyword, operators have
as many operands as they take, and literals are plain values. -/
inductive Expr.Built : Expr → Prop
  | null (s : Span) : Built (.null s)
  | literal (s : Span) {value : Value} : value.Plain → Built (.literal s value)
  | list (s : Span) {items : List Expr} : (∀ e ∈ items, Built e) → Built (.list s items)
  | ref (s : Span) (scope : Scope) {name : String} : IsWord name → Built (.ref s scope name)
  | field (s : Span) {base : Expr} {name : String} (safe : Bool) : Built base → IsWord name →
      Built (.field s base name safe)
  | index (s : Span) {base key : Expr} (safe : Bool) : Built base → Built key → Built (.index s base key safe)
  | coalesce (s : Span) {left right : Expr} : Built left → Built right → Built (.coalesce s left right)
  | choose (s : Span) {condition yes no : Expr} : Built condition → Built yes → Built no →
      Built (.choose s condition yes no)
  | binary (s : Span) {op : Operator} {left right : Expr} : op.arity = 2 → Built left → Built right →
      Built (.binary s op left right)
  | unary (s : Span) {op : Operator} {operand : Expr} : op.arity = 1 → Built operand → Built (.unary s op operand)
  | call (s : Span) {name : String} {args : List Expr} : IsWord name → Grammar.keyword? .synthetic name = none →
      (∀ e ∈ args, Built e) → Built (.call s name args)

/-- The operator has an operand on that side. -/
def Operator.Places (op : Operator) (side : Side) : Prop :=
  op.arity = 1 → side = if op.isPostfix then .left else .right

namespace Printable

/-- Two printables are written alike wherever they stand. -/
structure Alike (p q : Printable) : Prop where
  text : p.render = q.render
  guarded : ∀ {op side}, op.Places side → isProtected op side p = isProtected op side q
  base : p.isProtectedBase = q.isProtectedBase

/-- A printable is written like another one with a sign in front, but with no more parentheses around it. -/
structure Signs (p q : Printable) : Prop where
  text : p.render = "-" ++ q.render
  bare : ∀ {op side}, op.Places side → isProtected op side p = false
  bareBehind : ∀ {op side}, op.Places side → isProtected op side q = false
  base : p.isProtectedBase = q.isProtectedBase

theorem Alike.refl (p : Printable) : Alike p p := ⟨rfl, fun _ => rfl, rfl⟩

/-- What has the binding strength of a literal never gets parentheses. -/
theorem isProtected_primary (op : Operator) (side : Side) (text : String) :
    isProtected op side (.leaf text Level.primary) = false := by
  cases op <;> rfl

theorem signs_leaf (text : String) : Signs (.leaf ("-" ++ text) Level.primary) (.leaf text Level.primary) :=
  ⟨rfl, fun {op side} _ => isProtected_primary op side _, fun {op side} _ => isProtected_primary op side _, rfl⟩

/-- A sign in front of a number is written as if it were part of it. -/
theorem alike_negate (text : String) :
    Alike (.leaf ("-" ++ text) Operator.negate.level) (.unary .negate (.leaf text Level.primary)) := by
  refine ⟨rfl, fun {op side} places => ?_, rfl⟩
  cases op <;> cases side <;> first | rfl | cases places rfl

theorem render_sign {p : Printable} (bare : isProtected .negate .right p = false) :
    render (.unary .negate p) = "-" ++ p.render := by
  show "-" ++ parenthesized (isProtected .negate .right p) p.render = _
  rw [bare]
  rfl

theorem render_mark {p : Printable} (bare : isProtected .assertPresent .left p = false) :
    render (.unary .assertPresent p) = p.render ++ "!" := by
  show parenthesized (isProtected .assertPresent .left p) p.render ++ "!" = _
  rw [bare]
  rfl

theorem Signs.assert {p q : Printable} (signs : Signs p q) :
    Signs (.unary .assertPresent p) (.unary .assertPresent q) := by
  have asserted {op : Operator} {side : Side} (places : op.Places side) (p : Printable) :
      isProtected op side (.unary .assertPresent p) = false := by
    cases op <;> cases side <;> first | rfl | cases places rfl
  refine ⟨?_, fun places => asserted places p, fun places => asserted places q, rfl⟩
  rw [render_mark (signs.bare fun _ => rfl), render_mark (signs.bareBehind fun _ => rfl), signs.text,
    String.append_assoc]

end Printable

namespace Expr

/-- A tree that can be read, with literals that are read as they are written. -/
structure Faithful (e : Expr) : Prop where
  readable : e.Readable
  legible : ∀ v ∈ e.literals, v.Legible

/-- A tree that can be read and is written like the printable. Its root is a sign if the printable starts with
one that is not its root. -/
inductive Restates (p : Printable) : Expr → Prop
  | alike {e : Expr} : e.Faithful → p.Alike e.printable → Restates p e
  | signed {e : Expr} : e.Faithful → p.Signs e.printable → Restates p (.unary .synthetic .negate e)

theorem Faithful.join {op : Operator} {left right : Expr} (infixed : op.arity = 2) (faithful : left.Faithful)
    (faithfulRight : right.Faithful) : (Expr.join op left right).Faithful := by
  refine ⟨.join infixed faithful.readable faithfulRight.readable, fun v member => ?_⟩
  have either : v ∈ left.literals ++ right.literals := by
    cases op <;> exact member
  exact (List.mem_append.mp either).elim (faithful.legible v) (faithfulRight.legible v)

theorem Faithful.unary (op : Operator) {e : Expr} (arity : op.arity = 1) (faithful : e.Faithful) :
    (Expr.unary .synthetic op e).Faithful :=
  ⟨.unary _ arity faithful.readable, faithful.legible⟩

theorem printable_join (op : Operator) (left right : Expr) :
    (join op left right).printable = .binary op left.printable right.printable := by
  cases op <;> rfl

theorem printAll_eq_map (items : List Expr) : printAll items = items.map print := by
  induction items with
  | nil => rfl
  | cons e items ih => rw [printAll, ih, List.map_cons]; rfl

namespace Restates

variable {p : Printable} {e : Expr}

theorem refl (faithful : e.Faithful) : Restates e.printable e := .alike faithful (.refl _)

theorem faithful (restates : Restates p e) : e.Faithful := by
  cases restates with
  | alike faithful _ => exact faithful
  | signed faithful _ => exact faithful.unary .negate rfl

theorem text (restates : Restates p e) : e.print = p.render := by
  cases restates with
  | alike _ alike => exact alike.text.symm
  | signed _ signs =>
    exact (Printable.render_sign (signs.bareBehind fun _ => rfl)).trans signs.text.symm

/-- As operands they are written alike, unless a mark behind them would belong to what follows the sign. -/
theorem operand (restates : Restates p e) {op : Operator} {side : Side} (places : op.Places side)
    (loose : op ≠ .assertPresent) :
    Printable.parenthesized (Printable.isProtected op side p) p.render =
      Printable.parenthesized (Printable.isProtected op side e.printable) e.print := by
  rw [restates.text]
  cases restates with
  | alike _ alike => rw [alike.guarded places]
  | @signed e _ signs =>
    have bare : Printable.isProtected op side (Expr.unary .synthetic .negate e).printable = false := by
      cases op <;> cases side <;> first | rfl | exact absurd rfl loose | cases places rfl
    rw [signs.bare places, bare]

theorem join {p q : Printable} {left right : Expr} {op : Operator} (infixed : op.arity = 2)
    (restates : Restates p left)
    (restatesRight : Restates q right) : Restates (.binary op p q) (.join op left right) := by
  have places (side : Side) : op.Places side := fun arity => absurd (arity.symm.trans infixed) (by decide)
  have loose : op ≠ .assertPresent := by
    rintro rfl
    cases infixed
  refine .alike (restates.faithful.join infixed restatesRight.faithful) ?_
  rw [printable_join]
  refine ⟨?_, fun _ => rfl, rfl⟩
  simp only [Printable.render]
  rw [restates.operand (places .left) loose, restatesRight.operand (places .right) loose]
  rfl

theorem choose {p q r : Printable} {condition yes no : Expr} (restates : Restates p condition)
    (restatesYes : Restates q yes) (restatesNo : Restates r no) :
    Restates (.ternary .choose p q r) (.choose .synthetic condition yes no) := by
  have places (side : Side) : Operator.choose.Places side := fun arity => absurd arity (by decide)
  have loose : Operator.choose ≠ .assertPresent := by decide
  have faithful : (Expr.choose .synthetic condition yes no).Faithful := by
    refine ⟨.choose _ restates.faithful.readable restatesYes.faithful.readable restatesNo.faithful.readable, ?_⟩
    refine List.forall_mem_append.mpr ⟨List.forall_mem_append.mpr ⟨?_, ?_⟩, ?_⟩
    · exact restates.faithful.legible
    · exact restatesYes.faithful.legible
    · exact restatesNo.faithful.legible
  refine .alike faithful ⟨?_, fun _ => rfl, rfl⟩
  simp only [Expr.printable, Printable.render]
  rw [restates.operand (places .left) loose, restatesYes.operand (places .right) loose,
    restatesNo.operand (places .right) loose]
  rfl

/-- A sign is put in front of the other one, but a mark behind goes under it. -/
theorem unary {op : Operator} (arity : op.arity = 1) (restates : Restates p e) :
    ∃ e', Restates (.unary op p) e' := by
  by_cases marked : op = .assertPresent
  · subst marked
    cases restates with
    | signed faithful signs => exact ⟨_, .signed (faithful.unary _ arity) signs.assert⟩
    | alike faithful alike =>
      have guarded : Printable.isProtected .assertPresent .left p =
          Printable.isProtected .assertPresent .left e.printable := alike.guarded fun _ => rfl
      refine ⟨_, .alike (faithful.unary _ arity) ⟨?_, fun _ => rfl, rfl⟩⟩
      show Printable.parenthesized _ p.render ++ "!" = Printable.parenthesized _ e.printable.render ++ "!"
      rw [guarded, alike.text]
  · have prefixed : op.isPostfix = false := by
      cases op <;> first | rfl | exact absurd rfl marked
    have places : op.Places .right := by
      intro _
      rw [prefixed]
      rfl
    refine ⟨_, .alike (restates.faithful.unary _ arity) ⟨?_, fun _ => rfl, rfl⟩⟩
    simp only [Expr.printable, Printable.render, prefixed, Bool.false_eq_true, ↓reduceIte]
    rw [restates.operand places marked]
    rfl

/-- What follows a base, a member name or an index, belongs to what follows the sign. -/
theorem access {tail : String} (follow : Expr → Expr) (restates : Restates p e)
    (faithful : ∀ {e : Expr}, e.Faithful → (follow e).Faithful)
    (written : ∀ e : Expr, (follow e).printable =
      .leaf (Printable.parenthesized e.printable.isProtectedBase e.print ++ tail) Level.primary) :
    ∃ e', Restates (.leaf (Printable.parenthesized p.isProtectedBase p.render ++ tail) Level.primary) e' := by
  have sound := restates.faithful
  have text := restates.text
  cases restates with
  | alike _ alike =>
    refine ⟨_, .alike (faithful sound) ?_⟩
    rw [written, alike.base, alike.text]
    exact .refl _
  | @signed e sound' signs =>
    cases guarded : p.isProtectedBase with
    | true =>
      refine ⟨_, .alike (faithful sound) ?_⟩
      rw [written, text]
      exact .refl _
    | false =>
      refine ⟨_, .signed (faithful sound') ?_⟩
      rw [written, ← signs.base, guarded, signs.text]
      simp only [Printable.parenthesized, Bool.false_eq_true, ↓reduceIte, String.append_assoc]
      exact Printable.signs_leaf _

/-- All of the items are restated, one by one. -/
theorem each {α : Type} {p : α → Printable} {items : List α} (restates : ∀ a ∈ items, ∃ e, Restates (p a) e) :
    ∃ es : List Expr, (∀ e ∈ es, e.Faithful) ∧ printAll es = items.map fun a => (p a).render := by
  induction items with
  | nil => exact ⟨[], nofun, rfl⟩
  | cons a items ih =>
    obtain ⟨⟨e, first⟩, others⟩ := List.forall_mem_cons.mp restates
    obtain ⟨es, faithful, texts⟩ := ih others
    refine ⟨e :: es, List.forall_mem_cons.mpr ⟨first.faithful, faithful⟩, ?_⟩
    have text : e.printable.render = (p a).render := first.text
    rw [printAll, texts, text, List.map_cons]

end Restates

theorem Faithful.list {items : List Expr} (faithful : ∀ e ∈ items, e.Faithful) :
    (Expr.list .synthetic items).Faithful := by
  refine ⟨.list _ fun e member => (faithful e member).readable, fun v member => ?_⟩
  obtain ⟨e, among, inside⟩ := mem_literalsOfAll.mp member
  exact (faithful e among).legible v inside

theorem Faithful.call {name : String} {args : List Expr} (word : IsWord name)
    (free : Grammar.keyword? .synthetic name = none) (faithful : ∀ e ∈ args, e.Faithful) :
    (Expr.call .synthetic name args).Faithful := by
  refine ⟨.call _ word free fun e member => (faithful e member).readable, fun v member => ?_⟩
  obtain ⟨e, among, inside⟩ := mem_literalsOfAll.mp member
  exact (faithful e among).legible v inside

/-- A literal that is not a double is read as it is written if it can be read. -/
theorem Faithful.literal {value : Value} (readable : (Expr.literal .synthetic value).Readable)
    (other : ∀ x, value ≠ .float x) : (Expr.literal .synthetic value).Faithful := by
  refine ⟨readable, List.forall_mem_singleton.mpr fun x same => absurd same (other x)⟩

end Expr

theorem Value.printAll_eq_map (items : List Value) : printAll items = items.map fun v => v.printable.render := by
  induction items with
  | nil => rfl
  | cons v items ih => rw [printAll, ih, List.map_cons]

/-- A double without a sign is a literal of the language. -/
theorem Expr.Faithful.double {x : Float} {m : Nat} {e : Int} (unsigned : Binary.ofFloat x = .finite false m e) :
    (Expr.literal .synthetic (.float x)).Faithful ∧
      (Expr.literal .synthetic (.float x)).printable = .leaf (floatNumeral x) Level.primary := by
  have positive : ¬ x < 0 := fun below => Bool.noConfusion ((Binary.lt_zero_iff unsigned).mp below).1
  refine ⟨⟨.numeral _ (readsBack_of_unsigned unsigned), List.forall_mem_singleton.mpr ?_⟩, ?_⟩
  · rintro _ ⟨⟩
    rw [unsigned]
    trivial
  · simp only [Expr.printable, Value.printable, numberLeaf, positive, decide_false, Bool.false_eq_true, ↓reduceIte]

theorem Expr.Faithful.word {n : Word} (unsigned : 0 ≤ n.toInt) :
    (Expr.literal .synthetic (.int n)).Faithful ∧
      (Expr.literal .synthetic (.int n)).printable = .leaf (toString n.toInt) Level.primary := by
  refine ⟨.literal (.numeral _ (Numeral.value?_word unsigned).2) nofun, ?_⟩
  simp only [Expr.printable, Value.printable, numberLeaf, Int.not_lt.mpr unsigned, decide_false, Bool.false_eq_true,
    ↓reduceIte]

/-- A plain value is written like something that can be read, unless the least word is in it. -/
theorem Value.Plain.restated {v : Value} (plain : v.Plain) (fits : ¬ v.Holds Int64.minValue) :
    ∃ e, Expr.Restates v.printable e := by
  induction plain with
  | null => exact ⟨_, .refl ⟨.null .synthetic, nofun⟩⟩
  | undefined => exact ⟨_, .refl (.literal (.undefined _) nofun)⟩
  | bool b => exact ⟨_, .refl (.literal (.bool _ b) nofun)⟩
  | string s => exact ⟨_, .refl (.literal (.string _ s) nofun)⟩
  | int n =>
    rcases Int.lt_or_le n.toInt 0 with negative | unsigned
    · have more : n ≠ Int64.minValue := by
        rintro rfl
        exact fits .int
      obtain ⟨k, opposite⟩ := Word.exists_neg more
      obtain ⟨faithful, written⟩ := Expr.Faithful.word (n := k) (by omega)
      refine ⟨_, .alike (faithful.unary .negate rfl) ?_⟩
      rw [Expr.printable, written, opposite]
      simp only [Value.printable, numberLeaf, negative, decide_true, ↓reduceIte]
      rw [toString_of_negative negative]
      exact Printable.alike_negate _
    · exact ⟨_, .refl (Expr.Faithful.word unsigned).1⟩
  | @float x finite =>
    cases decoded : Binary.ofFloat x with
    | nan => rw [decoded] at finite; exact finite.elim
    | infinite negative => rw [decoded] at finite; exact finite.elim
    | finite negative m e =>
      cases negative with
      | false => exact ⟨_, .refl (Expr.Faithful.double decoded).1⟩
      | true =>
        obtain ⟨faithful, written⟩ := Expr.Faithful.double (Binary.ofFloat_neg decoded)
        simp only [Value.printable, numberLeaf, floatNumeral_of_negative decoded]
        by_cases below : x < 0
        · refine ⟨_, .alike (faithful.unary .negate rfl) ?_⟩
          rw [Expr.printable, written]
          simp only [below, decide_true, ↓reduceIte]
          exact Printable.alike_negate _
        · refine ⟨_, .signed faithful ?_⟩
          rw [written]
          simp only [below, decide_false, Bool.false_eq_true, ↓reduceIte]
          exact Printable.signs_leaf _
  | @list items _ ih =>
    obtain ⟨es, faithful, texts⟩ :=
      Expr.Restates.each fun v member => ih v member fun held => fits (.list member held)
    refine ⟨_, .alike (.list faithful) ?_⟩
    simp only [Expr.printable, Value.printable]
    rw [texts, Value.printAll_eq_map]
    exact .refl _

namespace Expr

theorem Built.restated {e : Expr} (built : e.Built) (fits : ∀ v ∈ e.literals, ¬ v.Holds Int64.minValue) :
    ∃ e', Restates e.printable e' := by
  induction built with
  | null s => exact ⟨_, .refl ⟨.null s, nofun⟩⟩
  | literal s plain => exact plain.restated (fits _ (List.mem_singleton_self _))
  | @list s items _ ih =>
    obtain ⟨es, faithful, texts⟩ := Restates.each fun e member =>
      ih e member fun v inside => fits v (mem_literalsOfAll.mpr ⟨e, member, inside⟩)
    refine ⟨_, .alike (.list faithful) ?_⟩
    simp only [printable]
    rw [texts, printAll_eq_map]
    exact .refl _
  | ref s scope word => exact ⟨_, .refl ⟨.ref s scope word, nofun⟩⟩
  | @field s base name safe _ word ih =>
    obtain ⟨e', restates⟩ := ih fits
    simp only [printable, String.append_assoc]
    exact restates.access (fun e => .field .synthetic e name safe)
      (fun faithful => ⟨.field _ safe faithful.readable word, faithful.legible⟩)
      (fun e => by simp only [printable, String.append_assoc]; rfl)
  | @index s base key safe _ _ ihBase ihKey =>
    obtain ⟨fitsBase, fitsKey⟩ := List.forall_mem_append.mp fits
    obtain ⟨e', restates⟩ := ihBase fitsBase
    obtain ⟨k', restatesKey⟩ := ihKey fitsKey
    have text : k'.printable.render = key.printable.render := restatesKey.text
    simp only [printable, String.append_assoc]
    exact restates.access (fun e => .index .synthetic e k' safe)
      (fun faithful => ⟨.index _ safe faithful.readable restatesKey.faithful.readable,
        List.forall_mem_append.mpr ⟨faithful.legible, restatesKey.faithful.legible⟩⟩)
      (fun e => by simp only [printable, String.append_assoc, text]; rfl)
  | coalesce s _ _ ih ihRight =>
    obtain ⟨fits, fitsRight⟩ := List.forall_mem_append.mp fits
    obtain ⟨left, restates⟩ := ih fits
    obtain ⟨right, restatesRight⟩ := ihRight fitsRight
    exact ⟨_, restates.join rfl restatesRight⟩
  | choose s _ _ _ ih ihYes ihNo =>
    obtain ⟨fitsFront, fitsNo⟩ := List.forall_mem_append.mp fits
    obtain ⟨fits, fitsYes⟩ := List.forall_mem_append.mp fitsFront
    obtain ⟨condition, restates⟩ := ih fits
    obtain ⟨yes, restatesYes⟩ := ihYes fitsYes
    obtain ⟨no, restatesNo⟩ := ihNo fitsNo
    exact ⟨_, restates.choose restatesYes restatesNo⟩
  | binary s infixed _ _ ih ihRight =>
    obtain ⟨fits, fitsRight⟩ := List.forall_mem_append.mp fits
    obtain ⟨left, restates⟩ := ih fits
    obtain ⟨right, restatesRight⟩ := ihRight fitsRight
    exact ⟨_, restates.join infixed restatesRight⟩
  | unary s arity _ ih =>
    obtain ⟨operand, restates⟩ := ih fits
    exact restates.unary arity
  | @call s name args word free _ ih =>
    obtain ⟨es, faithful, texts⟩ := Restates.each fun e member =>
      ih e member fun v inside => fits v (mem_literalsOfAll.mpr ⟨e, member, inside⟩)
    refine ⟨_, .alike (.call word free faithful) ?_⟩
    simp only [printable]
    rw [texts, printAll_eq_map]
    exact .refl _

end Expr

end LazyExpr
