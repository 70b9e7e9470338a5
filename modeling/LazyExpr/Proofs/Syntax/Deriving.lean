import LazyExpr.Proofs.Syntax.Parsing

namespace LazyExpr

open Lexeme (access opening Next closes)
open Grammar (nextStart)

/-- At most `n` tokens of a text, with nothing wrong about any of them. -/
structure Fair (n : Nat) (tokens : List Token) : Prop where
  sound : ∀ t ∈ tokens, t.Sound
  short : tokens.length ≤ n

namespace Fair

variable {n : Nat} {t : Token} {tokens rest : List Token}

theorem suffix (fair : Fair n tokens) (behind : rest <:+ tokens) : Fair n rest where
  sound t member := fair.sound t (behind.mem member)
  short := behind.length_le.trans fair.short

theorem behind (fair : Fair (n + 1) (t :: tokens)) : Fair n tokens where
  sound := (List.forall_mem_cons.mp fair.sound).2
  short := Nat.le_of_succ_le_succ fair.short

theorem mono (fair : Fair n tokens) : Fair (n + 1) tokens where
  sound := fair.sound
  short := Nat.le_succ_of_le fair.short

end Fair

theorem Parse.fair {stop n : Nat} {rank : Rank} {tokens rest : List Token} {e : Expr}
    (parse : Parse stop rank tokens e rest) (fair : Fair n tokens) : Fair n rest :=
  fair.suffix (parse.takes fair.sound).suffix

/-- What the reader takes from at most `n` tokens, it takes by the rules. -/
def Reader.Parses (reader : Reader Expr) (stop n : Nat) (rank : Rank) : Prop :=
  ∀ {tokens e rest}, Fair n tokens → reader tokens = some (e, rest) → Parse stop rank tokens e rest

namespace Grammar

variable {self : Reader Expr} {stop n : Nat}

theorem moreItems_parses (parses : self.Parses stop n .whole) {close : Lexeme} {fuel : Nat}
    {tokens rest : List Token}
    {found : List Expr × Span} (fair : Fair (n + 1) tokens)
    (run : moreItems self close fuel tokens = some (found, rest)) :
    ∃ items, Row close tokens items found.2 rest ∧ items.map (·.expr) = found.1 ∧
      ∀ item ∈ items, Parse stop .whole item.tokens item.expr item.rest := by
  fun_induction moreItems self close fuel tokens generalizing found rest with
  | case1 fuel s behind e after read es last left more ih =>
    cases run
    have parse := parses fair.behind read
    obtain ⟨items, row, same, each⟩ := ih (parse.fair fair.behind).mono more
    refine ⟨⟨behind, e, after⟩ :: items, .more s row, ?_, List.forall_mem_cons.mpr ⟨parse, each⟩⟩
    rw [List.map_cons, same]
  | case4 fuel t behind closes =>
    cases run
    obtain ⟨lexeme, s⟩ := t
    cases closes
    exact ⟨[], .done s _, rfl, List.forall_mem_nil _⟩
  | _ => cases run

theorem items_parses (parses : self.Parses stop n .whole) {close : Lexeme} {tokens rest : List Token}
    {found : List Expr × Span} (fair : Fair n tokens) (run : items self close tokens = some (found, rest)) :
    ∃ items, Enclosed close tokens items found.2 rest ∧ items.map (·.expr) = found.1 ∧
      ∀ item ∈ items, Parse stop .whole item.tokens item.expr item.rest := by
  fun_cases items self close tokens with
  | case1 t behind closes =>
    rw [items, if_pos closes] at run
    cases run
    obtain ⟨lexeme, s⟩ := t
    cases closes
    exact ⟨[], .none s rest, rfl, List.forall_mem_nil _⟩
  | case2 t behind opens e after read es last left more =>
    simp only [items, if_neg opens, read, more] at run
    cases run
    have parse := parses fair read
    obtain ⟨items, row, same, each⟩ := moreItems_parses parses (parse.fair fair).mono more
    refine ⟨⟨t :: behind, e, after⟩ :: items, .some row, ?_, List.forall_mem_cons.mpr ⟨parse, each⟩⟩
    rw [List.map_cons, same]
  | case3 t behind opens e after read more => simp only [items, if_neg opens, read, more] at run; cases run
  | case4 t behind opens read => simp only [items, if_neg opens, read] at run; cases run
  | case5 => cases run

theorem primary_parses (parses : self.Parses stop n .whole) : (primary self).Parses stop (n + 1) .primary := by
  intro tokens e rest fair run
  unfold primary at run
  split at run
  · split at run
    · rename_i found
      cases run
      exact .keyword found
    · rename_i free
      split at run
      · split at run
        · rename_i read
          cases run
          obtain ⟨items, enclosed, rfl, each⟩ :=
            items_parses parses (fair.behind.suffix (List.suffix_cons _ _)) read
          exact .call _ free enclosed each
        · cases run
      · cases run
  · cases run
    exact .numeral _ _ _
  · cases run
    exact .quoted _ _ _
  · cases run
    exact .ref _ _ _ _
  · split at run
    · rename_i read
      cases run
      obtain ⟨items, enclosed, rfl, each⟩ := items_parses parses fair.behind read
      exact .list _ enclosed each
    · cases run
  · split at run
    · rename_i read
      cases run
      exact .parens _ _ (parses fair.behind read)
    · cases run
  · cases run

theorem index?_parses (parses : self.Parses stop n .whole) {base : Expr} {safe : Bool}
    {tokens opens inner rest : List Token} {e : Expr} (opened : opens.map (·.lexeme) = opening safe)
    (parse : Parse stop .member tokens base (opens ++ inner)) (fair : Fair n inner)
    (run : index? self base safe inner = some (e, rest)) :
    Parse stop .member tokens e rest ∧ rest.length < (opens ++ inner).length := by
  unfold index? at run
  split at run
  · rename_i read
    cases run
    have parseKey := parses fair read
    have shorter := (parseKey.takes fair.sound).shorter
    refine ⟨.index _ opened parse parseKey, ?_⟩
    rw [List.length_cons] at shorter
    rw [List.length_append]
    omega
  · cases run

theorem suffix?_parses (parses : self.Parses stop n .whole) {base e : Expr} {tokens mid rest : List Token}
    (parse : Parse stop .member tokens base mid) (fair : Fair (n + 1) mid)
    (run : suffix? self base mid = some (e, rest)) :
    Parse stop .member tokens e rest ∧ rest.length < mid.length := by
  unfold suffix? at run
  split at run
  · cases run
    exact ⟨@Parse.field _ _ _ _ _ false _ _ parse, by simp only [List.length_cons]; omega⟩
  · cases run
    exact ⟨@Parse.field _ _ _ _ _ true _ _ parse, by simp only [List.length_cons]; omega⟩
  · exact @index?_parses _ _ _ parses _ _ _ [_] _ _ _ rfl parse fair.behind run
  · exact @index?_parses _ _ _ parses _ _ _ [_, _] _ _ _ rfl parse (fair.behind.suffix (List.suffix_cons _ _)) run
  · cases run
    exact ⟨.assert _ parse, Nat.lt_succ_self _⟩
  · cases run

/-- No suffix is found there. -/
def Stopped (self : Reader Expr) (tokens : List Token) : Prop := ∃ e, suffix? self e tokens = none

theorem suffixes_parses (parses : self.Parses stop n .whole) {fuel : Nat} {base : Expr} {tokens mid : List Token}
    (parse : Parse stop .member tokens base mid) (fair : Fair (n + 1) tokens) (enough : mid.length ≤ fuel) :
    Parse stop .member tokens (suffixes self fuel base mid).1 (suffixes self fuel base mid).2 ∧
      Stopped self (suffixes self fuel base mid).2 := by
  fun_induction suffixes self fuel base mid with
  | case1 base mid =>
    obtain rfl : mid = [] := List.length_eq_zero_iff.mp (Nat.le_zero.mp enough)
    exact ⟨parse, base, rfl⟩
  | case2 fuel base mid e rest found ih =>
    obtain ⟨longer, shorter⟩ := suffix?_parses parses parse (parse.fair fair) found
    exact ih longer (Nat.le_of_lt_succ (shorter.trans_le enough))
  | case3 fuel base mid found => exact ⟨parse, base, found⟩

theorem signs_suffix (tokens : List Token) : (signs tokens).2 <:+ tokens := by
  fun_induction signs tokens with
  | case1 s behind more left split ih | case2 s behind more left split ih =>
    rw [split] at ih
    exact ih.trans (List.suffix_cons _ _)
  | case3 => exact List.suffix_rfl

theorem signs_parses {tokens rest : List Token} {e : Expr} (parse : Parse stop .operand (signs tokens).2 e rest) :
    Parse stop .operand tokens (applySigns (signs tokens).1 e) rest := by
  fun_induction signs tokens with
  | case1 s behind more left split ih =>
    rw [split] at ih
    exact @Parse.sign stop ⟨.bang, s⟩ .not _ _ _ rfl (ih parse)
  | case2 s behind more left split ih =>
    rw [split] at ih
    exact @Parse.sign stop ⟨.operator .minus, s⟩ .negate _ _ _ rfl (ih parse)
  | case3 => exact parse

theorem operand_parses (parses : self.Parses stop n .whole) {tokens rest : List Token} {e : Expr}
    (fair : Fair (n + 1) tokens) (run : operand self tokens = some (e, rest)) :
    Parse stop .operand tokens e rest ∧ Stopped self rest := by
  unfold operand at run
  dsimp only at run
  split at run
  · rename_i read
    cases run
    have inner := fair.suffix (signs_suffix tokens)
    have first := primary_parses parses inner read
    obtain ⟨parse, stopped⟩ := suffixes_parses parses (.ofPrimary first) inner (Nat.le_refl _)
    exact ⟨signs_parses (.ofMember parse), stopped⟩
  · cases run

/-- Operators with their right operands, one behind the other. -/
inductive Links (stop : Nat) : List Token → List (Operator × Expr) → List Token → Prop
  | none (rest : List Token) : Links stop rest [] rest
  | some {tokens mid rest : List Token} {op : Operator} {e : Expr} {pairs : List (Operator × Expr)} (s : Span) :
      Parse stop .operand tokens e mid → Links stop mid pairs rest →
      Links stop (⟨.operator op, s⟩ :: tokens) ((op, e) :: pairs) rest

theorem Links.append {tokens rest : List Token} {pairs more : List (Operator × Expr)}
    (links : Links stop tokens (pairs ++ more) rest) :
    ∃ mid, Links stop tokens pairs mid ∧ Links stop mid more rest := by
  induction pairs generalizing tokens with
  | nil => exact ⟨tokens, .none tokens, links⟩
  | cons pair pairs ih =>
    cases links with
    | some s parse later =>
      obtain ⟨mid, front, back⟩ := ih later
      exact ⟨mid, .some s parse front, back⟩

theorem chain_links (parses : self.Parses stop n .whole) (fuel : Nat) {tokens : List Token}
    (fair : Fair (n + 1) tokens)
    (stopped : Stopped self tokens) :
    Links stop tokens (chain self fuel tokens).1 (chain self fuel tokens).2 ∧
      Stopped self (chain self fuel tokens).2 := by
  fun_induction chain self fuel tokens with
  | case1 fuel op s behind e after read more left split ih =>
    rw [split] at ih
    have inner := fair.behind.mono
    obtain ⟨parse, between⟩ := operand_parses parses inner read
    obtain ⟨links, ended⟩ := ih (parse.fair inner) between
    exact ⟨.some s parse links, ended⟩
  | case2 => exact ⟨.none _, stopped⟩
  | case3 => exact ⟨.none _, stopped⟩

/-- An ordered tree over operands that stand one behind the other is taken by the rules. -/
theorem Links.tree {t : Grouping Expr} {least : Level} (ordered : t.Ordered) (bound : t.AtLeast least)
    {tokens mid rest : List Token} (parse : Parse stop .operand tokens t.first mid)
    (links : Links stop mid t.pairs rest) : Parse stop (.chain least) tokens (t.build Expr.join) rest := by
  induction t generalizing least tokens mid rest with
  | operand e =>
    cases links
    exact .ofOperand least parse
  | joint op left right ihLeft ihRight =>
    obtain ⟨boundLeft, boundRight, orderedLeft, orderedRight⟩ := ordered
    obtain ⟨between, front, back⟩ := Links.append links
    cases back with
    | some s parseRight linksRight =>
      exact .binary s bound (ihLeft orderedLeft boundLeft parse front)
        (ihRight orderedRight boundRight parseRight linksRight)

theorem binary_parses (parses : self.Parses stop n .whole) {tokens rest : List Token} {e : Expr}
    (fair : Fair (n + 1) tokens) (run : binary self tokens = some (e, rest)) :
    Parse stop (.chain .lowest) tokens e rest ∧ Stopped self rest := by
  unfold binary at run
  split at run
  · rename_i first after read
    cases run
    obtain ⟨parse, between⟩ := operand_parses parses fair read
    obtain ⟨links, stopped⟩ := chain_links parses after.length (parse.fair fair) between
    obtain ⟨t, sameFirst, same, ordered⟩ := exists_ordered first (chain self after.length after).1
    rw [← sameFirst, ← same, ordered.group_eq]
    rw [← same] at links
    have lowest : t.AtLeast .lowest := by
      cases t with
      | operand => trivial
      | joint op _ _ => exact op.lowest_le_level
    exact ⟨Links.tree ordered lowest (sameFirst ▸ parse) links, stopped⟩
  · cases run

theorem branches_parses (parses : self.Parses stop n .whole) {tokens rest : List Token} {yes no : Expr}
    (fair : Fair n tokens) (run : branches self tokens = some ((yes, no), rest)) :
    ∃ s after, Parse stop .whole tokens yes (⟨.colon, s⟩ :: after) ∧ Parse stop .whole after no rest := by
  unfold branches at run
  split at run
  · rename_i s after readYes
    have parseYes := parses fair readYes
    split at run
    · rename_i readNo
      cases run
      exact ⟨s, after, parseYes, parses ((parseYes.fair fair).suffix (List.suffix_cons _ _)) readNo⟩
    · cases run
  · cases run

/-- A bracket behind a question mark was tried as an index before: what begins with it holds no single item. -/
theorem unindexed_of_stopped {erased : Reader Expr} (erases : self.Erases erased Expr.withoutSpans)
    (covers : erased.Covers n) {s : Span} {inner rest : List Token} {yes : Expr} (fair : Fair n inner)
    (parse : Parse stop .whole inner yes rest) (stopped : Stopped self (⟨.question true, s⟩ :: inner)) :
    Lexeme.Unindexed (inner.map (·.lexeme)) yes := by
  intro bracket s' item leftmost
  obtain ⟨taken, rfl, phrase⟩ := parse.takes fair.sound
  rw [List.map_append, phrase.head?_append] at bracket
  obtain ⟨items, more, phrases, lexemes, ahead⟩ := phrase.list_ahead bracket
  rw [Expr.leftmost_withoutSpans, leftmost] at ahead
  have single : items.map (·.2) = [item.withoutSpans] := (Expr.list.inj ahead).2.symm
  obtain ⟨one, rfl, _⟩ := List.map_eq_singleton_iff.mp single
  obtain ⟨⟨mark, opens⟩, tokens, rfl, same, inside⟩ := List.map_eq_cons_iff.mp lexemes
  obtain rfl : mark = .openBracket := same
  have bounded : one.1.length < n := by
    have count := congrArg List.length inside
    have short := fair.short
    simp only [List.map_cons, List.map_nil, Lexeme.separated, List.length_append, List.length_map, List.length_cons]
      at count short
    omega
  have next : Next closes (.closeBracket :: (more ++ rest.map (·.lexeme))) := by
    rintro _ ⟨⟩
    rfl
  have whole : (tokens ++ rest).map (·.lexeme) = one.1 ++ .closeBracket :: (more ++ rest.map (·.lexeme)) := by
    rw [List.map_append, inside]
    simp [Lexeme.separated]
  have read := erases (tokens ++ rest)
  rw [map_withoutSpan, whole, covers (phrases one List.mem_cons_self) bounded next] at read
  obtain ⟨⟨key, left⟩, found, same⟩ := Option.map_eq_some_iff.mp read.symm
  obtain ⟨_, closing⟩ := Prod.mk.inj same
  obtain ⟨⟨mark, last⟩, left, rfl, same, _⟩ := List.map_eq_cons_iff.mp closing
  obtain rfl : mark = .closeBracket := congrArg Token.lexeme same
  obtain ⟨e, none⟩ := stopped
  have some : suffix? self e (⟨.question true, s⟩ :: ⟨.openBracket, opens⟩ :: (tokens ++ rest)) =
      some (.index (e.span.merge last) e key true, left) := by
    simp only [suffix?, index?, found]
  rw [List.cons_append, some] at none
  cases none

theorem level_parses {erased : Reader Expr} (parses : self.Parses stop n .whole)
    (erases : self.Erases erased Expr.withoutSpans) (covers : erased.Covers n) :
    (level stop self).Parses stop (n + 1) .whole := by
  intro tokens e rest fair run
  unfold level at run
  split at run
  · rename_i condition glued s inner readCondition
    obtain ⟨parse, stopped⟩ := binary_parses parses fair readCondition
    split at run
    · rename_i readBranches
      cases run
      have behind : Fair n inner := (parse.fair fair).behind
      obtain ⟨s', after, parseYes, parseNo⟩ := branches_parses parses behind readBranches
      refine .choose s s' parse parseYes parseNo ?_
      rintro rfl
      exact unindexed_of_stopped erases covers behind parseYes stopped
    · cases run
      exact .ofChain parse
  · exact .ofChain (binary_parses parses fair run).1

theorem expr_parses (stop depth : Nat) : (expr stop depth).Parses stop depth .whole := by
  induction depth with
  | zero => intro tokens e rest _ run; cases run
  | succ depth ih => exact level_parses ih (expr_erases stop depth) (Phrase.expr_covers depth)

end Grammar

/-- A text that is read is taken by the rules, all of it. -/
theorem parse_of_read {source : String} {e : Expr} (accepted : read source = .ok e) :
    ∃ tokens, Token.all? source.toList = some tokens ∧ (∀ t ∈ tokens, t.Sound) ∧
      Parse (byteSize source.toList) .whole tokens e [] := by
  obtain ⟨tokens, matched, faultless⟩ := read_eq_ok_iff.mp accepted
  obtain ⟨scanned, whole⟩ := match?_eq_some_iff.mp matched
  have sound : ∀ t ∈ tokens, t.Sound := fun t member =>
    ⟨Token.scan?_wellFormed scanned t member, List.findSome?_eq_none_iff.mp faultless t member⟩
  refine ⟨tokens, scanned, sound, ?_⟩
  unfold Grammar.whole? at whole
  split at whole
  · rename_i run
    cases whole
    exact Grammar.expr_parses _ _ ⟨sound, Nat.le_succ _⟩ run
  · cases whole

end LazyExpr
