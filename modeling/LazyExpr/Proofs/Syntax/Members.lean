import LazyExpr.Proofs.Syntax.Parentheses

namespace LazyExpr

namespace Expr

/-- The base of a member access with what is written behind it. -/
def access? : Expr → Option (Expr × String)
  | field _ base name safe => some (base, (if safe then "?." else ".") ++ name)
  | index _ base key safe => some (base, (if safe then "?[" else "[") ++ key.print ++ "]")
  | _ => none

variable {node base : Expr} {suffix : String}

theorem print_access (access : node.access? = some (base, suffix)) :
    node.print = Printable.parenthesized base.printable.isProtectedBase base.print ++ suffix := by
  cases node with
  | field s base name safe =>
    cases access
    exact String.append_assoc ..
  | index s base key safe =>
    cases access
    show _ ++ _ ++ _ ++ _ = _
    simp only [String.append_assoc]
    rfl
  | _ => cases access

theorem mem_children_of_access (access : node.access? = some (base, suffix)) : base ∈ node.children := by
  cases node with
  | field => cases access; exact List.mem_singleton_self _
  | index => cases access; exact List.mem_cons_self
  | _ => cases access

end Expr

/-- Written behind a member, the text has these lexemes, which make an access to that member. An access has no
operator at its root. -/
structure Suffixes (suffix : String) (tail : List Lexeme) (access : Expr → Expr) : Prop where
  writes : ∀ {text ls}, Writes text ls → Writes (text ++ suffix) (ls ++ tail)
  phrase : ∀ {ls e}, Phrase .member ls e → Phrase .member (ls ++ tail) (access e)
  rootless : ∀ e, (access e).operator? = none

namespace Suffixes

variable {suffix text : String} {tail : List Lexeme} {access : Expr → Expr} {e : Expr}

theorem field {name : String} (word : IsWord name) (safe : Bool) :
    Suffixes ((if safe then "?." else ".") ++ name) [Lexeme.access safe, .word name]
      (.field .synthetic · name safe) where
  writes writes := by
    rw [← String.append_assoc]
    exact writes.field word safe
  phrase phrase := .field name safe phrase
  rootless _ := rfl

theorem index {key : Expr} {text : String} {ks : List Lexeme} (writesKey : Writes text ks)
    (phraseKey : Phrase .whole ks key) (safe : Bool) :
    Suffixes ((if safe then "?[" else "[") ++ text ++ "]") (Lexeme.opening safe ++ (ks ++ [.closeBracket]))
      (.index .synthetic · key safe) where
  writes writes := by
    rw [← String.append_assoc, ← String.append_assoc]
    exact writes.index writesKey safe
  phrase phrase := .index safe phrase phraseKey
  rootless _ := rfl

/-- Behind a member it is an access to this. -/
theorem member (suffixes : Suffixes suffix tail access) (spells : Spells .member text e) :
    Spells .whole (text ++ suffix) (access e) := by
  obtain ⟨ls, writes, phrase⟩ := spells
  exact ⟨_, suffixes.writes writes, (suffixes.phrase phrase).whole⟩

/-- Behind an operator other than the assertion it goes to the last operand of that. -/
theorem operation {inner : Operator} (suffixes : Suffixes suffix tail access)
    (spells : SpellsOperation inner text e)
    (other : inner ≠ .assertPresent) : ∃ e', Spells .whole (text ++ suffix) e' ∧ e' ≠ access e := by
  obtain ⟨ls, writes, operation⟩ := spells
  obtain ⟨e', longer⟩ := operation.suffix_behind (fun phrase => ⟨_, suffixes.phrase phrase⟩) other
  have whole : SpellsOperation inner (text ++ suffix) e' := ⟨_, suffixes.writes writes, longer⟩
  refine ⟨e', whole.whole, ?_⟩
  rintro rfl
  cases (suffixes.rootless e).symm.trans longer.operator?

end Suffixes

namespace Expr.Readable

variable {node base : Expr} {suffix : String}

/-- Parentheses are written around every operator. -/
theorem isProtectedBase_iff (readable : base.Readable) :
    base.printable.isProtectedBase = true ↔ ∃ op, base.operator? = some op := by
  cases root : base.operator? with
  | none =>
    obtain ⟨text, leaf⟩ := readable.printable_leaf root
    rw [leaf]
    exact iff_of_false nofun nofun
  | some op =>
    have rooted : base.printable.operator? = some op := base.operator?_printable.trans root
    refine iff_of_true ?_ ⟨op, rfl⟩
    cases shape : base.printable <;> rw [shape] at rooted <;> first | rfl | cases rooted

/-- What has no operator at its root, or the assertion, is printed as a member. -/
theorem spells_member (readable : base.Readable) (legible : ∀ v ∈ base.literals, v.Legible)
    (tight : ∀ op, base.operator? = some op → op = .assertPresent) :
    Spells .member base.print base.withoutSpans := by
  cases root : base.operator? with
  | none =>
    obtain ⟨text, leaf⟩ := readable.printable_leaf root
    have spells := (readable.spells legible).spells
    rw [leaf] at spells
    exact spells
  | some op =>
    obtain rfl := tight op root
    exact (readable.spells_root legible root).spells

/-- The suffix of an access that was read makes that access of its base. -/
theorem suffixes (readable : node.Readable) (legible : ∀ v ∈ node.literals, v.Legible)
    (access : node.access? = some (base, suffix)) :
    ∃ tail rebuild, Suffixes suffix tail rebuild ∧ node.withoutSpans = rebuild base.withoutSpans := by
  cases readable with
  | field s safe readable word =>
    cases access
    exact ⟨_, _, .field word safe, rfl⟩
  | @index s base key safe readable readableKey =>
    cases access
    obtain ⟨_, legibleKey⟩ := List.forall_mem_append.mp legible
    obtain ⟨ks, writesKey, phraseKey⟩ := (readableKey.spells legibleKey).spells.whole
    exact ⟨_, _, .index writesKey phraseKey safe, rfl⟩
  | _ => cases access

end Expr.Readable

/-- Text in parentheses is longer than the text. -/
theorem parentheses_ne (text tail : String) : text ++ tail ≠ "(" ++ text ++ ")" ++ tail := by
  intro same
  have sizes := congrArg String.length same
  simp only [String.length_append] at sizes
  have one : "(".length = 1 := rfl
  omega

/-- In an expression that was read the base of a member access is printed in parentheses exactly if without them
the node would not be read as it is, or if the base is an assertion, which could do without them. -/
theorem base_parenthesized_iff {source : String} {e : Expr} (accepted : read source = .ok e)
    (finite : ∀ x, .float x ∈ e.literals → (Binary.ofFloat x).IsFinite) {node base : Expr} {suffix : String}
    (occurs : node.Occurs e) (access : node.access? = some (base, suffix)) :
    (node.print = "(" ++ base.print ++ ")" ++ suffix ↔
      (¬ ∃ again, read (base.print ++ suffix) = .ok again ∧ again.withoutSpans = node.withoutSpans) ∨
        base.operator? = some .assertPresent) ∧
    (base.operator? = some .assertPresent →
      ∃ again, read (base.print ++ suffix) = .ok again ∧ again.withoutSpans = node.withoutSpans) := by
  have readable : node.Readable := occurs.readable (read_readable accepted)
  have legible := Expr.legible_of_finite fun x member => finite x (occurs.literals _ member)
  have member : base ∈ node.children := Expr.mem_children_of_access access
  have readableBase := readable.child member
  have legibleBase : ∀ v ∈ base.literals, v.Legible := fun v inside =>
    legible v (Expr.literals_of_child member v inside)
  obtain ⟨tail, rebuild, suffixes, same⟩ := readable.suffixes legible access
  have written : node.print = "(" ++ base.print ++ ")" ++ suffix ↔ ∃ op, base.operator? = some op := by
    rw [Expr.print_access access, ← readableBase.isProtectedBase_iff]
    cases base.printable.isProtectedBase with
    | false => exact iff_of_false (parentheses_ne _ _) Bool.false_ne_true
    | true => exact iff_of_true rfl rfl
  have bare (tight : ∀ op, base.operator? = some op → op = .assertPresent) :
      ∃ again, read (base.print ++ suffix) = .ok again ∧ again.withoutSpans = node.withoutSpans := by
    rw [(suffixes.member (readableBase.spells_member legibleBase tight)).reads_iff, same]
  refine ⟨?_, fun asserted => bare fun op root => Option.some.inj (root.symm.trans asserted)⟩
  rw [written]
  constructor
  · rintro ⟨op, root⟩
    by_cases asserted : op = .assertPresent
    · exact .inr (asserted ▸ root)
    · obtain ⟨e', spells, apart⟩ := suffixes.operation (readableBase.spells_root legibleBase root) asserted
      rw [spells.reads_iff, same]
      exact .inl apart
  · rintro (needed | asserted)
    · by_contra rootless
      exact needed (bare fun op root => absurd ⟨op, root⟩ rootless)
    · exact ⟨_, asserted⟩

theorem base_parenthesized_iff_fallback :
    let base : Expr := .coalesce ⟨2, 10⟩ (.literal ⟨2, 5⟩ (.float 1.5)) (.literal ⟨9, 10⟩ (.int 2))
    let node : Expr := .field ⟨2, 13⟩ base "x" false
    let e : Expr := .unary ⟨0, 13⟩ .negate node
    read "-(1.5 ?? 2).x" = .ok e ∧ (∀ x, .float x ∈ e.literals → (Binary.ofFloat x).IsFinite) ∧ node.Occurs e ∧
      node.access? = some (base, ".x") ∧
      (node.print = "(" ++ base.print ++ ")" ++ ".x" ↔
        (¬ ∃ again, read (base.print ++ ".x") = .ok again ∧ again.withoutSpans = node.withoutSpans) ∨
          base.operator? = some .assertPresent) ∧
      (base.operator? = some .assertPresent →
        ∃ again, read (base.print ++ ".x") = .ok again ∧ again.withoutSpans = node.withoutSpans) := by
  intro base node e
  let tokens : List Token := [⟨.operator .minus, ⟨0, 1⟩⟩, ⟨.openParen, ⟨1, 2⟩⟩, ⟨.numeral ['1', '.', '5'], ⟨2, 5⟩⟩,
    ⟨.operator .coalesce, ⟨6, 8⟩⟩, ⟨.numeral ['2'], ⟨9, 10⟩⟩, ⟨.closeParen, ⟨10, 11⟩⟩, ⟨.dot, ⟨11, 12⟩⟩,
    ⟨.word "x", ⟨12, 13⟩⟩]
  have scanned : Token.all? "-(1.5 ?? 2).x".toList = some tokens := rfl
  have tree : Grammar.whole? (byteSize "-(1.5 ?? 2).x".toList) tokens = some e := rfl
  have faultless : tokens.findSome? Token.fault? = none := rfl
  have accepted : read "-(1.5 ?? 2).x" = .ok e :=
    read_eq_ok_iff.mpr ⟨tokens, match?_eq_some_iff.mpr ⟨scanned, tree⟩, faultless⟩
  have finite : ∀ x, .float x ∈ e.literals → (Binary.ofFloat x).IsFinite := by
    intro x member
    rcases List.mem_cons.mp member with same | other
    · rw [Value.float.inj same, Binary.ofFloat_three_halves]
      trivial
    · cases List.mem_singleton.mp other
  have occurs : node.Occurs e := .inside (List.mem_singleton_self _) .here
  have access : node.access? = some (base, ".x") := rfl
  exact ⟨accepted, finite, occurs, access, base_parenthesized_iff accepted finite occurs access⟩

/-- An assertion keeps the parentheses that it could do without. -/
theorem asserted_base_parenthesized :
    let base : Expr := .unary ⟨1, 13⟩ .assertPresent (.ref ⟨1, 12⟩ .param "a")
    let e : Expr := .field ⟨1, 19⟩ base "name" false
    read "(\x7b\x7bparam:a\x7d\x7d!).name" = .ok e ∧ (∀ x, .float x ∈ e.literals → (Binary.ofFloat x).IsFinite) ∧
      e.access? = some (base, ".name") ∧ e.print = "(" ++ base.print ++ ")" ++ ".name" ∧
      ∃ again, read (base.print ++ ".name") = .ok again ∧ again.withoutSpans = e.withoutSpans := by
  intro base e
  have accepted : read "(\x7b\x7bparam:a\x7d\x7d!).name" = .ok e := by
    let tokens : List Token := [⟨.openParen, ⟨0, 1⟩⟩, ⟨.ref "param" "a", ⟨1, 12⟩⟩, ⟨.bang, ⟨12, 13⟩⟩,
      ⟨.closeParen, ⟨13, 14⟩⟩, ⟨.dot, ⟨14, 15⟩⟩, ⟨.word "name", ⟨15, 19⟩⟩]
    have scanned : Token.all? "(\x7b\x7bparam:a\x7d\x7d!).name".toList = some tokens := rfl
    have tree : Grammar.whole? (byteSize "(\x7b\x7bparam:a\x7d\x7d!).name".toList) tokens = some e := rfl
    have faultless : tokens.findSome? Token.fault? = none := rfl
    exact read_eq_ok_iff.mpr ⟨tokens, match?_eq_some_iff.mpr ⟨scanned, tree⟩, faultless⟩
  have bare : read (base.print ++ ".name") =
      .ok (.field ⟨0, 17⟩ (.unary ⟨0, 12⟩ .assertPresent (.ref ⟨0, 11⟩ .param "a")) "name" false) := by
    have text : base.print ++ ".name" = "\x7b\x7bparam:a\x7d\x7d!.name" := by decide +kernel
    let tokens : List Token := [⟨.ref "param" "a", ⟨0, 11⟩⟩, ⟨.bang, ⟨11, 12⟩⟩, ⟨.dot, ⟨12, 13⟩⟩,
      ⟨.word "name", ⟨13, 17⟩⟩]
    have scanned : Token.all? "\x7b\x7bparam:a\x7d\x7d!.name".toList = some tokens := rfl
    have tree : Grammar.whole? (byteSize "\x7b\x7bparam:a\x7d\x7d!.name".toList) tokens =
        some (.field ⟨0, 17⟩ (.unary ⟨0, 12⟩ .assertPresent (.ref ⟨0, 11⟩ .param "a")) "name" false) := rfl
    have faultless : tokens.findSome? Token.fault? = none := rfl
    rw [text]
    exact read_eq_ok_iff.mpr ⟨tokens, match?_eq_some_iff.mpr ⟨scanned, tree⟩, faultless⟩
  have access : e.access? = some (base, ".name") := rfl
  exact ⟨accepted, fun x member => absurd member List.not_mem_nil, access, Expr.print_access access, _, bare, rfl⟩

end LazyExpr
