import Mathlib
import LazyExpr.Proofs.Number.Digits
import LazyExpr.Proofs.Syntax.Drafting
import LazyExpr.Proofs.Syntax.Tokens

namespace LazyExpr

/-- An integer that is too large for a word, or a reference to a scope that does not exist. The grammar has a place
for either. -/
inductive Lexeme.Faulty : Lexeme → Prop
  | tooLarge {digits} : '.' ∉ digits → 2 ^ 63 - 1 < Numeral.ofDigits digits → Faulty (numeral digits)
  | unscoped {scope name} : scope ≠ "param" → scope ≠ "local" → scope ≠ "range" → Faulty (ref scope name)

/-- The report is about this token of the source. A numeral is reported for its span, a reference for the span of
its scope, which stands behind two braces. -/
inductive Token.Blamed (source : List Char) : Token → Diagnostic → Prop
  | numeral {s digits hint} : s.Covers 0 source digits →
      Blamed source ⟨.numeral digits, s⟩ ⟨s, "invalid number: " ++ String.ofList digits, hint⟩
  | scope {s part : Span} {scope name hint} : part.start = s.start + 2 → part.Covers 0 source scope.toList →
      Blamed source ⟨.ref scope name, s⟩ ⟨part, "unknown variable scope: " ++ scope, hint⟩

theorem Word.ofInt?_natCast_eq_none_iff {n : Nat} : Word.ofInt? n = none ↔ 2 ^ 63 - 1 < n := by
  have least : Int64.minValue.toInt = -9223372036854775808 := rfl
  have greatest : Int64.maxValue.toInt = 9223372036854775807 := rfl
  rw [Word.ofInt?, least, greatest]
  split
  · refine iff_of_false (Option.some_ne_none _) ?_
    omega
  · refine iff_of_true rfl ?_
    omega

/-- The numerals without a value are the integers that are too large. -/
theorem Numeral.value?_eq_none_iff {cs : List Char} : value? cs = none ↔ '.' ∉ cs ∧ 2 ^ 63 - 1 < ofDigits cs := by
  unfold value?
  split
  · rename_i places pointed
    have point : '.' ∈ cs := List.dropWhile_suffix _ |>.subset (pointed ▸ List.mem_cons_self)
    exact iff_of_false (Option.some_ne_none _) fun both => both.1 point
  · rename_i plain
    have noPoint : '.' ∉ cs := by
      intro point
      cases left : cs.dropWhile (· ≠ '.') with
      | nil => exact of_decide_eq_true (List.dropWhile_eq_nil_iff.mp left '.' point) rfl
      | cons c places =>
        have stopped := List.head_dropWhile_not (· ≠ '.') (left ▸ List.cons_ne_nil c places)
        simp only [left, List.head_cons, decide_eq_false_iff_not, not_not] at stopped
        exact plain places (stopped ▸ left)
    rw [Option.map_eq_none_iff, Word.ofInt?_natCast_eq_none_iff]
    exact (and_iff_right noPoint).symm

theorem Scope.ofKeyword?_eq_none_iff {keyword : String} :
    ofKeyword? keyword = none ↔ keyword ≠ "param" ∧ keyword ≠ "local" ∧ keyword ≠ "range" := by
  unfold ofKeyword?
  grind

theorem Token.fault?_eq_none_iff (t : Token) : t.fault? = none ↔ ¬ t.lexeme.Faulty := by
  obtain ⟨lexeme, s⟩ := t
  cases lexeme with
  | numeral digits =>
    have valueless : Token.fault? ⟨.numeral digits, s⟩ = none ↔ ¬ Numeral.value? digits = none := by
      simp only [Token.fault?]
      cases Numeral.value? digits <;> simp
    rw [valueless, Numeral.value?_eq_none_iff]
    refine not_congr ⟨fun both => .tooLarge both.1 both.2, fun faulty => ?_⟩
    cases faulty with
    | tooLarge plain large => exact ⟨plain, large⟩
  | ref scope name =>
    have scopeless : Token.fault? ⟨.ref scope name, s⟩ = none ↔ ¬ Scope.ofKeyword? scope = none := by
      simp only [Token.fault?]
      cases Scope.ofKeyword? scope <;> simp
    rw [scopeless, Scope.ofKeyword?_eq_none_iff]
    refine not_congr ⟨fun all => .unscoped all.1 all.2.1 all.2.2, fun faulty => ?_⟩
    cases faulty with
    | unscoped param binding range => exact ⟨param, binding, range⟩
  | _ => exact iff_of_true rfl fun faulty => by cases faulty

theorem Token.blamed_of_fault {t : Token} {source word : List Char} {fault : ReadError}
    (made : t.lexeme.MadeOf word) (covers : t.span.Covers 0 source word) (found : t.fault? = some fault) :
    t.Blamed source fault.diagnostic := by
  obtain ⟨lexeme, s⟩ := t
  unfold Token.fault? at found
  dsimp only at found made covers
  split at found
  · split at found
    · cases found
    · cases found
      cases made with
      | numeral => exact .numeral covers
      | mark mark => cases mark
  · split at found
    · cases found
    · cases found
      cases made with
      | ref =>
        rw [List.append_assoc] at covers
        exact .scope rfl (@Span.Covers.part s 0 source ['\x7b', '\x7b'] _ _ covers)
      | mark mark => cases mark
  · cases found

/-- The first fault belongs to the first faulty token. -/
theorem faultOf_eq_some {tokens : List Token} {fault : ReadError} (found : faultOf tokens = some fault) :
    ∃ before t after, tokens = before ++ t :: after ∧ (∀ u ∈ before, ¬ u.lexeme.Faulty) ∧ t.lexeme.Faulty ∧
      t.fault? = some fault := by
  obtain ⟨before, t, after, whole, first, earlier⟩ := List.findSome?_eq_some_iff.mp found
  refine ⟨before, t, after, whole, fun u member => (Token.fault?_eq_none_iff u).mp (earlier u member), ?_, first⟩
  by_contra faultless
  rw [(Token.fault?_eq_none_iff t).mpr faultless] at first
  cases first

theorem exists_faultOf_iff {tokens : List Token} :
    (∃ fault, faultOf tokens = some fault) ↔ ∃ t ∈ tokens, t.lexeme.Faulty := by
  constructor
  · intro ⟨fault, found⟩
    obtain ⟨before, t, after, rfl, _, faulty, _⟩ := faultOf_eq_some found
    exact ⟨t, List.mem_append_right before List.mem_cons_self, faulty⟩
  · intro ⟨t, member, faulty⟩
    refine Option.ne_none_iff_exists'.mp fun faultless => ?_
    exact (Token.fault?_eq_none_iff t).mp (List.findSome?_eq_none_iff.mp faultless t member) faulty

namespace Draft

theorem settle_eq_error_iff {α : Type} {fault : Option ReadError} {a : α} {error : ReadError} :
    settle fault a = .error error ↔ fault = some error := by
  cases fault <;> simp [settle]

theorem match?_settles (source : List Char) :
    match? source = (LazyExpr.match? source).map fun found => settle (faultOf found.1) found.2 := by
  unfold match? LazyExpr.match?
  cases Token.all? source with
  | none => rfl
  | some tokens =>
    dsimp only
    rw [whole?_settles, Option.map_map]
    rfl

theorem read_matched {source : String} {tokens : List Token} {e : Expr}
    (matched : LazyExpr.match? source.toList = some (tokens, e)) : read source = settle (faultOf tokens) e := by
  simp only [read, match?_settles, matched, Option.map_some]

/-- What is read is what is built. -/
theorem read_eq (source : String) : read source = LazyExpr.read source := by
  cases matched : LazyExpr.match? source.toList with
  | none => simp only [read, match?_settles, LazyExpr.read, matched, Option.map_none]
  | some found =>
    obtain ⟨tokens, e⟩ := found
    rw [read_matched matched]
    simp only [LazyExpr.read, matched]
    cases fault : tokens.findSome? Token.fault? with
    | none => exact congrArg (settle · e) fault
    | some fault => exact congrArg (settle · e) fault

/-- Building a text that the grammar matches fails at its leftmost faulty token, and at none else. -/
theorem read_blames_leftmost (source : String) {tokens : List Token} {e : Expr}
    (matched : LazyExpr.match? source.toList = some (tokens, e)) :
    read source = LazyExpr.read source ∧
    (∀ t ∈ tokens, ∃ word, t.lexeme.MadeOf word ∧ t.span.Covers 0 source.toList word) ∧
    (tokens.Pairwise fun a b => a.span.stop ≤ b.span.start) ∧
    ((∃ error, read source = .error error) ↔ ∃ t ∈ tokens, t.lexeme.Faulty) ∧
    ∀ error, read source = .error error → ∃ before t after, tokens = before ++ t :: after ∧
      (∀ u ∈ before, ¬ u.lexeme.Faulty) ∧ t.lexeme.Faulty ∧ t.Blamed source.toList error.diagnostic := by
  have scanned := (match?_eq_some_iff.mp matched).1
  have stands := Token.scan?_covers scanned
  refine ⟨read_eq source, stands, Token.scan?_ordered scanned, ?_, fun error failed => ?_⟩
  · simp only [read_matched matched, settle_eq_error_iff]
    exact exists_faultOf_iff
  · rw [read_matched matched, settle_eq_error_iff] at failed
    obtain ⟨before, t, after, rfl, earlier, faulty, first⟩ := faultOf_eq_some failed
    obtain ⟨word, made, covers⟩ := stands t (List.mem_append_right before List.mem_cons_self)
    exact ⟨before, t, after, rfl, earlier, faulty, Token.blamed_of_fault made covers first⟩

theorem read_blames_leftmost_scope :
    let source := "[\x7b\x7buser:id\x7d\x7d][9223372036854775808]"
    ∃ tokens e, LazyExpr.match? source.toList = some (tokens, e) ∧ read source = .error (.scope ⟨3, 7⟩ "user") ∧
      ∃ before t after, tokens = before ++ t :: after ∧ (∀ u ∈ before, ¬ u.lexeme.Faulty) ∧ t.lexeme.Faulty ∧
        t.Blamed source.toList (ReadError.scope ⟨3, 7⟩ "user").diagnostic := by
  intro source
  let tokens : List Token := [⟨.openBracket, ⟨0, 1⟩⟩, ⟨.ref "user" "id", ⟨1, 12⟩⟩, ⟨.closeBracket, ⟨12, 13⟩⟩,
    ⟨.openBracket, ⟨13, 14⟩⟩, ⟨.numeral "9223372036854775808".toList, ⟨14, 33⟩⟩, ⟨.closeBracket, ⟨33, 34⟩⟩]
  have scanned : Token.all? source.toList = some tokens := by decide +kernel
  have grammatical : (Grammar.whole? (byteSize source.toList) tokens).isSome := by decide +kernel
  obtain ⟨e, whole⟩ := Option.isSome_iff_exists.mp grammatical
  have matched := match?_eq_some_iff.mpr ⟨scanned, whole⟩
  have first : faultOf tokens = some (.scope ⟨3, 7⟩ "user") := rfl
  have failed : read source = .error (.scope ⟨3, 7⟩ "user") :=
    (read_matched matched).trans (settle_eq_error_iff.mpr first)
  exact ⟨tokens, e, matched, failed, (read_blames_leftmost source matched).2.2.2.2 _ failed⟩

end Draft

end LazyExpr
