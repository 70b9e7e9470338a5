import LazyExpr.Proofs.Syntax.Framing
import LazyExpr.Proofs.Syntax.RoundTrip

namespace LazyExpr

open Lexeme (Balanced)
open Grammar (nextStart)

theorem utf8Size_of_blank {c : Char} (blank : isBlank c) : c.utf8Size = 1 := by
  simp only [isBlank, Bool.or_eq_true, decide_eq_true_eq] at blank
  rcases blank with ((rfl | rfl) | rfl) | rfl <;> rfl

namespace Token

variable {fuel here place : Nat} {cs : List Char} {tokens front core back : List Token}

theorem lt_of_endsBy (scan : scan? fuel here cs = some (core ++ back)) (ends : EndsBy core place) :
    here < place := by
  obtain ⟨before, last, rfl, _, stop⟩ := ends
  have member : last ∈ before ++ [last] ++ back :=
    List.mem_append_left _ (List.mem_append_right _ List.mem_cons_self)
  obtain ⟨word, made, covers⟩ := scan?_covers scan last member
  have start := covers.start_ge
  obtain ⟨left, right, _, same⟩ := covers
  have size := byteSize_pos made.ne_nil
  rw [same] at start stop
  dsimp only at start stop
  omega

/-- The text from a token on. -/
theorem scan?_drop (scan : scan? fuel here cs = some (front ++ tokens)) (more : tokens ≠ []) (stop : Nat) :
    ∃ left right fuel', cs = left ++ right ∧ scan? fuel' (here + byteSize left) right = some tokens ∧
      nextStart stop tokens = here + byteSize left := by
  fun_induction scan? fuel here cs generalizing front with
  | case1 => exact absurd (List.append_eq_nil_iff.mp (Option.some.inj scan).symm).2 more
  | case2 => cases scan
  | case3 fuel here c rest blank ih =>
    obtain ⟨left, right, fuel', rfl, scanned, start⟩ := ih scan
    rw [Nat.add_assoc] at scanned start
    exact ⟨c :: left, right, fuel', rfl, scanned, start⟩
  | case4 => cases scan
  | case5 fuel here c cs solid lexeme taken rest split stop =>
    rename_i ih
    obtain ⟨behind, scanned, same⟩ := Option.map_eq_some_iff.mp scan
    rcases front with _ | ⟨t, front⟩
    · refine ⟨[], c :: cs, fuel + 1, rfl, ?_, ?_⟩
      · show scan? (fuel + 1) here (c :: cs) = some tokens
        rw [scan?, if_neg solid, split]
        exact scan
      · rw [← List.nil_append tokens, ← same]
        rfl
    · obtain ⟨_, rfl⟩ := List.cons.inj same
      obtain ⟨left, right, fuel', rfl, scanned, start⟩ := ih scanned
      have whole := (Lexeme.split?_made split).1
      refine ⟨taken ++ left, right, fuel', ?_, ?_, ?_⟩
      · rw [List.append_assoc, whole]
      · rw [byteSize_append, ← Nat.add_assoc]
        exact scanned
      · rw [byteSize_append, ← Nat.add_assoc]
        exact start

/-- The text up to a place behind a token and in front of the next one has the tokens up to there. -/
theorem scan?_take (scan : scan? fuel here cs = some (core ++ back)) (above : here ≤ place)
    (ends : core ≠ [] → EndsBy core place) (below : place ≤ nextStart (here + byteSize cs) back) :
    ∃ text right, cs = text ++ right ∧ place = here + byteSize text ∧ Lexes text (core.map (·.lexeme)) := by
  fun_induction scan? fuel here cs generalizing core with
  | case1 =>
    obtain ⟨rfl, rfl⟩ := List.append_eq_nil_iff.mp (Option.some.inj scan).symm
    exact ⟨[], [], rfl, Nat.le_antisymm below above, .done⟩
  | case2 => cases scan
  | case3 fuel here c rest blank ih =>
    have one := utf8Size_of_blank blank
    by_cases stays : place = here
    · have none : core = [] := by
        by_contra some
        have beyond := lt_of_endsBy scan (ends some)
        omega
      subst none
      exact ⟨[], c :: rest, rfl, stays, .done⟩
    · have below' : place ≤ nextStart (here + c.utf8Size + byteSize rest) back := by
        rw [Nat.add_assoc]
        exact below
      obtain ⟨text, right, rfl, reached, lexes⟩ := ih scan (by omega) ends below'
      refine ⟨c :: text, right, rfl, ?_, .blank blank lexes⟩
      rw [reached, byteSize, Nat.add_assoc]
  | case4 => cases scan
  | case5 fuel here c cs solid lexeme taken rest split stop =>
    rename_i ih
    obtain ⟨behind, scanned, same⟩ := Option.map_eq_some_iff.mp scan
    obtain ⟨whole, made⟩ := Lexeme.split?_made split
    rcases core with _ | ⟨t, core⟩
    · rw [← show _ = back from same] at below
      exact ⟨[], c :: cs, rfl, Nat.le_antisymm below above, .done⟩
    · obtain ⟨rfl, rfl⟩ := List.cons.inj same
      have endsAll := ends (List.cons_ne_nil _ _)
      have within : stop ≤ place := by
        by_cases more : core = []
        · subst more
          exact endsAll.of_single.2
        · exact (lt_of_endsBy scanned (endsAll.tail more)).le
      have below' : place ≤ nextStart (stop + byteSize rest) back := by
        rw [← whole, byteSize_append, ← Nat.add_assoc] at below
        exact below
      obtain ⟨text, right, rfl, reached, lexes⟩ := ih scanned within endsAll.tail below'
      refine ⟨taken ++ text, right, ?_, ?_, ?_⟩
      · rw [List.append_assoc, whole]
      · rw [reached, byteSize_append, Nat.add_assoc]
      · obtain ⟨_, letters, ended⟩ := Lexeme.split?_eq_some_iff.mp split
        have kept : lexeme = .question true → text ≠ [] := by
          rintro rfl rfl
          rcases core with _ | ⟨next, core⟩
          · exact endsAll.of_single.1 rfl
          · cases lexes with
            | token none => cases none
        exact .token (Lexeme.split?_eq_some_iff.mpr ⟨rfl, letters, ended.front kept⟩) lexes

end Token

/-- A text whose tokens are a phrase if their parentheses are balanced is read exactly then, and as nothing else. -/
theorem read_iff_balanced {text : List Char} {tokens : List Token} {e : Expr}
    (scanned : Token.all? text = some tokens)
    (phrase : Balanced (tokens.map (·.lexeme)) → Phrase .whole (tokens.map (·.lexeme)) e) :
    (∀ found, read (String.ofList text) = .ok found → found.withoutSpans = e) ∧
      ((∃ found, read (String.ofList text) = .ok found) ↔ Balanced (tokens.map (·.lexeme))) := by
  have chars : (String.ofList text).toList = text := String.toList_ofList
  have reads (balanced : Balanced (tokens.map (·.lexeme))) :
      ∃ found, read (String.ofList text) = .ok found ∧ found.withoutSpans = e := by
    rw [← chars] at scanned
    exact (phrase balanced).read scanned
  have balanced {found : Expr} (accepted : read (String.ofList text) = .ok found) :
      Balanced (tokens.map (·.lexeme)) := by
    obtain ⟨tokens', scanned', sound, parse⟩ := parse_of_read accepted
    rw [chars, scanned] at scanned'
    cases scanned'
    have takes := parse.takes sound
    rw [← List.append_nil tokens] at takes
    exact takes.phrase.balanced
  refine ⟨fun found accepted => ?_, fun ⟨found, accepted⟩ => balanced accepted, fun closed => ?_⟩
  · obtain ⟨found', read, same⟩ := reads (balanced accepted)
    rw [accepted] at read
    cases read
    exact same
  · obtain ⟨found, accepted, _⟩ := reads closed
    exact ⟨found, accepted⟩

/-- The span of what is framed is that of a part of the text with the tokens in the frame. -/
theorem Framed.slice {source : List Char} {front opens core closes rest : List Token} {e : Expr}
    (framed : Framed (byteSize source) opens core closes rest e) (order : e.span.start ≤ e.span.stop)
    (scanned : Token.all? source = some (front ++ (opens ++ core ++ closes ++ rest))) :
    ∃ left text right tokens, source = left ++ text ++ right ∧ e.span = ⟨byteSize left, byteSize (left ++ text)⟩ ∧
      Token.all? text = some tokens ∧ tokens.map (·.lexeme) = core.map (·.lexeme) := by
  have split : front ++ (opens ++ core ++ closes ++ rest) = front ++ opens ++ (core ++ (closes ++ rest)) := by
    simp only [List.append_assoc]
  rw [split] at scanned
  obtain ⟨left, behind, fuel, rfl, scannedBehind, start⟩ := Token.scan?_drop scanned
    (List.append_ne_nil_of_left_ne_nil framed.ends.ne_nil _) (byteSize source)
  have starts : e.span.start = byteSize left := by
    rw [framed.start, ← Nat.zero_add (byteSize left), ← start, Grammar.nextStart_append framed.ends.ne_nil]
  rw [Nat.zero_add] at scannedBehind
  have below := framed.below
  rw [byteSize_append] at below
  obtain ⟨text, right, rfl, stop, lexes⟩ :=
    Token.scan?_take scannedBehind (starts ▸ order) (fun _ => framed.ends) below
  obtain ⟨tokens, scannedText, lexemes⟩ := lexes.all?
  refine ⟨left, text, right, tokens, (List.append_assoc _ _ _).symm, ?_, scannedText, lexemes⟩
  rw [byteSize_append, ← stop]
  exact congrArg (Span.mk · _) starts

/-- The text at the span of a node is read as that node if it is read at all, and it is read exactly if its
parentheses are balanced. -/
theorem read_slice {source : String} {e node : Expr} (accepted : read source = .ok e) (occurs : node.Occurs e) :
    ∃ left text right tokens, source.toList = left ++ text ++ right ∧
      node.span = ⟨byteSize left, byteSize (left ++ text)⟩ ∧ Token.all? text = some tokens ∧
      (∀ found, read (String.ofList text) = .ok found → found.withoutSpans = node.withoutSpans) ∧
      ((∃ found, read (String.ofList text) = .ok found) ↔ Balanced (tokens.map (·.lexeme))) := by
  obtain ⟨tokens, scanned, sound, parse⟩ := parse_of_read accepted
  have laid := Laid.of_all? scanned
  obtain ⟨rank, taken, rest, within, parseNode⟩ := parse.occurs laid occurs
  have laidNode := laid.suffix within
  have order := (parseNode.placed laidNode).between.nonempty.le
  obtain ⟨opens, core, closes, rfl, framed⟩ := parseNode.framed laidNode fun t member => sound t (within.mem member)
  obtain ⟨front, rfl⟩ := within
  obtain ⟨left, text, right, tokens, split, span, scannedText, lexemes⟩ := framed.slice order scanned
  exact ⟨left, text, right, tokens, split, span, scannedText,
    read_iff_balanced scannedText fun balanced => lexemes ▸ framed.phrase (lexemes ▸ balanced)⟩

/-- A conditional holds the parentheses of its condition. -/
theorem read_slice_conditional :
    let minus : Expr := .binary ⟨1, 6⟩ .minus (.literal ⟨1, 2⟩ (.int 2)) (.literal ⟨5, 6⟩ (.int 3))
    let times : Expr := .binary ⟨1, 11⟩ .times minus (.literal ⟨10, 11⟩ (.int 4))
    let e : Expr := .choose ⟨0, 19⟩ times (.literal ⟨14, 15⟩ (.int 1)) (.literal ⟨18, 19⟩ (.int 0))
    read "(2 - 3) * 4 ? 1 : 0" = .ok e ∧ e.Occurs e ∧
      ∃ left text right tokens, "(2 - 3) * 4 ? 1 : 0".toList = left ++ text ++ right ∧
        e.span = ⟨byteSize left, byteSize (left ++ text)⟩ ∧ Token.all? text = some tokens ∧
        (∀ found, read (String.ofList text) = .ok found → found.withoutSpans = e.withoutSpans) ∧
        ((∃ found, read (String.ofList text) = .ok found) ↔ Balanced (tokens.map (·.lexeme))) := by
  intro minus times e
  let tokens : List Token := [⟨.openParen, ⟨0, 1⟩⟩, ⟨.numeral ['2'], ⟨1, 2⟩⟩, ⟨.operator .minus, ⟨3, 4⟩⟩,
    ⟨.numeral ['3'], ⟨5, 6⟩⟩, ⟨.closeParen, ⟨6, 7⟩⟩, ⟨.operator .times, ⟨8, 9⟩⟩, ⟨.numeral ['4'], ⟨10, 11⟩⟩,
    ⟨.question false, ⟨12, 13⟩⟩, ⟨.numeral ['1'], ⟨14, 15⟩⟩, ⟨.colon, ⟨16, 17⟩⟩, ⟨.numeral ['0'], ⟨18, 19⟩⟩]
  have scanned : Token.all? "(2 - 3) * 4 ? 1 : 0".toList = some tokens := rfl
  have tree : Grammar.whole? (byteSize "(2 - 3) * 4 ? 1 : 0".toList) tokens = some e := rfl
  have faultless : tokens.findSome? Token.fault? = none := rfl
  have accepted : read "(2 - 3) * 4 ? 1 : 0" = .ok e :=
    read_eq_ok_iff.mpr ⟨tokens, match?_eq_some_iff.mpr ⟨scanned, tree⟩, faultless⟩
  exact ⟨accepted, .here, read_slice accepted .here⟩

/-- A product does not hold the parenthesis that its first operand begins with. -/
theorem slice_not_read :
    let plus : Expr := .binary ⟨1, 6⟩ .plus (.literal ⟨1, 2⟩ (.int 1)) (.literal ⟨5, 6⟩ (.int 2))
    let e : Expr := .binary ⟨1, 11⟩ .times plus (.literal ⟨10, 11⟩ (.int 3))
    read "(1 + 2) * 3" = .ok e ∧ e.Occurs e ∧ "(1 + 2) * 3".toList = ['('] ++ "1 + 2) * 3".toList ∧
      e.span = ⟨byteSize ['('], byteSize (['('] ++ "1 + 2) * 3".toList)⟩ ∧
      ∀ found, read "1 + 2) * 3" ≠ .ok found := by
  intro plus e
  let tokens : List Token := [⟨.openParen, ⟨0, 1⟩⟩, ⟨.numeral ['1'], ⟨1, 2⟩⟩, ⟨.operator .plus, ⟨3, 4⟩⟩,
    ⟨.numeral ['2'], ⟨5, 6⟩⟩, ⟨.closeParen, ⟨6, 7⟩⟩, ⟨.operator .times, ⟨8, 9⟩⟩, ⟨.numeral ['3'], ⟨10, 11⟩⟩]
  have scanned : Token.all? "(1 + 2) * 3".toList = some tokens := rfl
  have tree : Grammar.whole? (byteSize "(1 + 2) * 3".toList) tokens = some e := rfl
  have faultless : tokens.findSome? Token.fault? = none := rfl
  have accepted : read "(1 + 2) * 3" = .ok e :=
    read_eq_ok_iff.mpr ⟨tokens, match?_eq_some_iff.mpr ⟨scanned, tree⟩, faultless⟩
  refine ⟨accepted, .here, rfl, rfl, fun found accepted => ?_⟩
  obtain ⟨tokens, matched, _⟩ := read_eq_ok_iff.mp accepted
  have unmatched : (match? "1 + 2) * 3".toList).isNone = true := by decide +kernel
  rw [matched] at unmatched
  cases unmatched

end LazyExpr
