import LazyExpr.Proofs.Syntax.Drafting
import LazyExpr.Proofs.Syntax.Lexing
import LazyExpr.Proofs.Syntax.Operands

namespace LazyExpr

/-- Nothing but blanks, or nothing at all. -/
def Blank (cs : List Char) : Prop := ∀ c ∈ cs, isBlank c

/-- Two texts that differ in their blanks only: a run of them stands for another run outside of the literals of
strings, and either text may end with some. -/
inductive Spaced : List Char → List Char → Prop
  | ends {a b : List Char} : Blank a → Blank b → Spaced a b
  | blanks {a b cs ds : List Char} : a ≠ [] → b ≠ [] → Blank a → Blank b → Spaced cs ds → Spaced (a ++ cs) (b ++ ds)
  | literal {content taken cs ds : List Char} : Quoted.decode taken = some (content, taken, []) → Spaced cs ds →
      Spaced (taken ++ cs) (taken ++ ds)
  | solid {c : Char} {cs ds : List Char} : isSolid c → Spaced cs ds → Spaced (c :: cs) (c :: ds)

/-- Either text may begin with blanks as well. -/
def Respaced (source other : List Char) : Prop :=
  ∃ lead lead' body body',
    Blank lead ∧ Blank lead' ∧ Spaced body body' ∧ source = lead ++ body ∧ other = lead' ++ body'

namespace Spaced

variable {c : Char} {cs ds taken rest : List Char}

theorem symm (spaced : Spaced cs ds) : Spaced ds cs := by
  induction spaced with
  | ends a b => exact .ends b a
  | blanks some some' a b _ ih => exact .blanks some' some b a ih
  | literal decoded _ ih => exact .literal decoded ih
  | solid solid _ ih => exact .solid solid ih

theorem of_nil (spaced : Spaced [] ds) : Blank ds := by
  generalize empty : [] = text at spaced
  cases spaced with
  | ends _ blank => exact blank
  | blanks some =>
    obtain ⟨rfl, _⟩ := List.nil_eq_append_iff.mp empty
    exact absurd rfl some
  | literal decoded =>
    obtain ⟨more, rfl⟩ := Quoted.decode_quote decoded
    cases empty
  | solid => cases empty

/-- Unless it is a blank, the first character is the same. -/
theorem head (spaced : Spaced cs ds) : ∀ c ∈ cs.head?, isBlank c ∨ c ∈ ds.head? := by
  intro c first
  cases spaced with
  | ends blank => exact .inl (blank c (List.mem_of_mem_head? first))
  | blanks some _ blank =>
    obtain ⟨d, more, rfl⟩ := List.exists_cons_of_ne_nil some
    cases first
    exact .inl (blank _ List.mem_cons_self)
  | literal decoded =>
    obtain ⟨more, rfl⟩ := Quoted.decode_quote decoded
    exact .inr first
  | solid => exact .inr first

theorem uncons (spaced : Spaced (c :: cs) ds) (solid : isSolid c) : ∃ ds', ds = c :: ds' ∧ Spaced cs ds' := by
  generalize whole : c :: cs = text at spaced
  cases spaced with
  | ends blank =>
    subst whole
    exact absurd (blank c List.mem_cons_self) (not_blank_of_solid solid)
  | blanks some _ blank =>
    obtain ⟨d, more, rfl⟩ := List.exists_cons_of_ne_nil some
    cases whole
    exact absurd (blank c List.mem_cons_self) (not_blank_of_solid solid)
  | literal decoded =>
    obtain ⟨more, rfl⟩ := Quoted.decode_quote decoded
    cases whole
    exact absurd rfl (ne_quote_of_solid solid)
  | solid _ more =>
    cases whole
    exact ⟨_, rfl, more⟩

theorem uncons_all (spaced : Spaced (taken ++ rest) ds) (solid : ∀ c ∈ taken, isSolid c) :
    ∃ rest', ds = taken ++ rest' ∧ Spaced rest rest' := by
  induction taken generalizing ds with
  | nil => exact ⟨ds, rfl, spaced⟩
  | cons c taken ih =>
    obtain ⟨here, later⟩ := List.forall_mem_cons.mp solid
    obtain ⟨ds', rfl, more⟩ := spaced.uncons here
    obtain ⟨rest', rfl, behind⟩ := ih more later
    exact ⟨rest', rfl, behind⟩

theorem unquote {content : List Char} (spaced : Spaced (taken ++ rest) ds)
    (decoded : Quoted.decode taken = some (content, taken, [])) :
    ∃ rest', ds = taken ++ rest' ∧ Spaced rest rest' := by
  obtain ⟨more, rfl⟩ := Quoted.decode_quote decoded
  have whole := Quoted.decode_rest decoded rest
  generalize text : '"' :: more ++ rest = source at spaced whole
  cases spaced with
  | ends blank =>
    subst text
    exact absurd (blank '"' List.mem_cons_self) (by decide)
  | blanks some _ blank =>
    obtain ⟨d, others, rfl⟩ := List.exists_cons_of_ne_nil some
    have quote : '"' = d := (List.cons.inj text).1
    exact absurd (blank d List.mem_cons_self) (by rw [← quote]; decide)
  | literal decoded' behind =>
    rw [Quoted.decode_rest decoded'] at whole
    cases whole
    exact ⟨_, rfl, behind⟩
  | solid solid =>
    cases text
    exact absurd rfl (ne_quote_of_solid solid)

end Spaced

/-- The letters of a token are those of a string, or none of them is a blank or a mark of a string. -/
theorem Lexeme.Letters.solid {lexeme : Lexeme} {taken : List Char} (letters : lexeme.Letters taken) :
    (∀ c ∈ taken, isSolid c) ∨ ∃ content, Quoted.decode taken = some (content, taken, []) := by
  cases letters with
  | word isWord => exact .inl fun c member => isSolid_of_part (isWord.all c member)
  | numeral isNumeral => exact .inl fun c member => isNumeral.solid c member
  | quoted decoded => exact .inr ⟨_, decoded⟩
  | @ref scope name isScope isName =>
    have braces : ∀ c ∈ ['\x7d', '\x7d'], isSolid c := List.all_eq_true.mp rfl
    have inner {word : String} (isWord : IsWord word) : ∀ c ∈ word.toList, isSolid c := fun c member =>
      isSolid_of_part (isWord.all c member)
    have behind : ∀ c ∈ name.toList ++ ['\x7d', '\x7d'], isSolid c :=
      List.forall_mem_append.mpr ⟨inner isName, braces⟩
    have colon : ∀ c ∈ ':' :: (name.toList ++ ['\x7d', '\x7d']), isSolid c := List.forall_mem_cons.mpr ⟨rfl, behind⟩
    have scope := List.forall_mem_append.mpr ⟨inner isScope, colon⟩
    exact .inl (List.forall_mem_cons.mpr ⟨rfl, List.forall_mem_cons.mpr ⟨rfl, scope⟩⟩)
  | mark isMark => exact .inl (Lexeme.mark_solid isMark)

/-- What ends a token still ends it when only blanks are different. -/
theorem Lexeme.Ends.spaced {lexeme : Lexeme} {rest rest' : List Char} (ends : lexeme.Ends rest)
    (spaced : Spaced rest rest') : lexeme.Ends rest' := by
  have keep {kind : Char → Bool} (blanks : ∀ c, isBlank c → ¬ kind c) (free : ∀ c ∈ rest.head?, ¬ kind c) :
      ∀ c ∈ rest'.head?, ¬ kind c := by
    intro c first
    rcases spaced.symm.head c first with blank | same
    · exact blanks c blank
    · exact free c same
  have digits : ∀ c, isBlank c → ¬ c.isDigit := fun c blank digit =>
    not_isWordPart_of_blank blank (isWordPart_of_digit digit)
  cases lexeme with
  | word name => exact keep (fun _ => not_isWordPart_of_blank) ends
  | numeral cs =>
    refine ⟨keep digits ends.1, fun unpointed d behind same digit => ?_⟩
    -- The point and the digit behind it are no blanks, so that they stood behind the numeral before.
    subst same
    obtain ⟨more, rfl, tail⟩ := spaced.symm.uncons rfl
    obtain ⟨last, rfl, _⟩ := tail.uncons (isSolid_of_part (isWordPart_of_digit digit))
    exact ends.2 unpointed d last rfl digit
  | quoted | ref => trivial
  | question glued =>
    cases glued with
    | false => exact keep (fun _ blank => not_grows_blank blank _) ends
    | true =>
      obtain ⟨behind, rfl⟩ : ∃ behind, rest = '[' :: behind := List.head?_eq_some_iff.mp ends
      obtain ⟨more, rfl, _⟩ := spaced.uncons rfl
      rfl
  | _ => exact keep (fun _ blank => not_grows_blank blank _) ends

theorem Blank.lexes {cs rest : List Char} {ls : List Lexeme} (blank : Blank cs) (lexes : Lexes rest ls) :
    Lexes (cs ++ rest) ls := by
  induction cs with
  | nil => exact lexes
  | cons c cs ih =>
    obtain ⟨here, later⟩ := List.forall_mem_cons.mp blank
    exact .blank here (ih later)

namespace Respaced

variable {c : Char} {source other rest taken : List Char}

/-- A blank in front of a text makes no difference. -/
theorem behind_blank (respaced : Respaced (c :: source) other) (blank : isBlank c) : Respaced source other := by
  obtain ⟨lead, lead', body, body', blankLead, blankLead', spaced, whole, rfl⟩ := respaced
  cases lead with
  | cons d lead =>
    cases whole
    exact ⟨lead, lead', body, body', (List.forall_mem_cons.mp blankLead).2, blankLead', spaced, rfl, rfl⟩
  | nil =>
    rw [List.nil_append] at whole
    subst whole
    generalize text : c :: source = body at spaced
    cases spaced with
    | ends a b =>
      subst text
      exact ⟨[], lead', source, body', List.forall_mem_nil _, blankLead', .ends (List.forall_mem_cons.mp a).2 b,
        rfl,
        rfl⟩
    | @blanks a b cs ds some _ blankA blankB more =>
      obtain ⟨d, run, rfl⟩ := List.exists_cons_of_ne_nil some
      cases text
      refine ⟨run, lead' ++ b, cs, ds, (List.forall_mem_cons.mp blankA).2,
        List.forall_mem_append.mpr ⟨blankLead', blankB⟩, more, rfl, ?_⟩
      rw [List.append_assoc]
    | literal decoded =>
      obtain ⟨more, rfl⟩ := Quoted.decode_quote decoded
      cases text
      exact absurd blank (by decide)
    | solid solid =>
      cases text
      exact absurd blank (not_blank_of_solid solid)

/-- A text that begins with a token stays one, apart from blanks in front. -/
theorem of_token {lexeme : Lexeme} (respaced : Respaced source other)
    (split : Lexeme.split? source = some (lexeme, taken, rest)) :
    ∃ lead rest', Blank lead ∧ other = lead ++ (taken ++ rest') ∧
      Lexeme.split? (taken ++ rest') = some (lexeme, taken, rest') ∧ Spaced rest rest' := by
  obtain ⟨lead, lead', body, body', blankLead, blankLead', spaced, whole, rfl⟩ := respaced
  cases lead with
  | cons d lead =>
    subst whole
    rw [List.cons_append, Lexeme.split?_blank (blankLead d List.mem_cons_self)] at split
    cases split
  | nil =>
    rw [List.nil_append] at whole
    subst whole
    obtain ⟨rfl, letters, ends⟩ := Lexeme.split?_eq_some_iff.mp split
    obtain ⟨rest', rfl, more⟩ : ∃ rest', body' = taken ++ rest' ∧ Spaced rest rest' := by
      rcases letters.solid with solid | ⟨content, decoded⟩
      · exact spaced.uncons_all solid
      · exact spaced.unquote decoded
    exact ⟨lead', rest', blankLead', rfl, Lexeme.split?_eq_some_iff.mpr ⟨rfl, letters, ends.spaced more⟩, more⟩

theorem lexes {ls : List Lexeme} (respaced : Respaced source other) (lexes : Lexes source ls) : Lexes other ls := by
  induction lexes generalizing other with
  | done =>
    obtain ⟨lead, lead', body, body', _, blankLead', spaced, whole, rfl⟩ := respaced
    obtain ⟨rfl, rfl⟩ := List.nil_eq_append_iff.mp whole
    have blank := List.forall_mem_append.mpr ⟨blankLead', spaced.of_nil⟩
    have lexes := Blank.lexes blank .done
    rw [List.append_nil] at lexes
    exact lexes
  | blank blank _ ih => exact ih (respaced.behind_blank blank)
  | token split _ ih =>
    obtain ⟨lead, rest', blank, rfl, again, spaced⟩ := respaced.of_token split
    have behind : Respaced _ rest' := ⟨[], [], _, _, List.forall_mem_nil _, List.forall_mem_nil _, spaced, rfl, rfl⟩
    exact blank.lexes (.token again (ih behind))

end Respaced

theorem Lexes.of_scan? {fuel here : Nat} {cs : List Char} {tokens : List Token}
    (scan : Token.scan? fuel here cs = some tokens) : Lexes cs (tokens.map (·.lexeme)) := by
  fun_induction Token.scan? fuel here cs generalizing tokens with
  | case1 => cases scan; exact .done
  | case2 => cases scan
  | case3 fuel here c rest blank ih => exact .blank blank (ih scan)
  | case4 => cases scan
  | case5 fuel here c cs solid lexeme taken rest split stop =>
    rename_i ih
    obtain ⟨more, scanned, same⟩ := Option.map_eq_some_iff.mp scan
    cases same
    exact .token split (ih scanned)

/-- The grammar has a place for what the failure is about. -/
def ReadError.IsSemantic : ReadError → Prop
  | mismatch _ _ => False
  | numeral _ _ | scope _ _ => True

/-- What a failure says, wherever it is. -/
def ReadError.complaint (fault : ReadError) : String × Option String :=
  (fault.diagnostic.message, fault.diagnostic.hint)

theorem Token.isSemantic_of_fault {t : Token} {fault : ReadError} (found : t.fault? = some fault) :
    fault.IsSemantic := by
  unfold Token.fault? at found
  split at found
  · split at found <;> cases found
    trivial
  · split at found <;> cases found
    trivial
  · cases found

theorem isSemantic_of_faultOf {tokens : List Token} {fault : ReadError} (found : faultOf tokens = some fault) :
    fault.IsSemantic := by
  obtain ⟨t, _, here⟩ := List.exists_of_findSome?_eq_some found
  exact Token.isSemantic_of_fault here

/-- What is wrong with a token has to do with its lexeme only. -/
theorem Token.complaint_eq {t t' : Token} (same : t.lexeme = t'.lexeme) :
    t.fault?.map ReadError.complaint = t'.fault?.map ReadError.complaint := by
  unfold Token.fault?
  rw [same]
  cases t'.lexeme with
  | numeral digits =>
    dsimp only
    cases Numeral.value? digits <;> rfl
  | ref scope name =>
    dsimp only
    cases Scope.ofKeyword? scope <;> rfl
  | _ => rfl

theorem complaint_eq_of_lexemes {tokens tokens' : List Token}
    (same : tokens.map (·.lexeme) = tokens'.map (·.lexeme)) :
    (faultOf tokens).map ReadError.complaint = (faultOf tokens').map ReadError.complaint := by
  induction tokens generalizing tokens' with
  | nil =>
    rw [List.map_nil, eq_comm, List.map_eq_nil_iff] at same
    rw [same]
  | cons t tokens ih =>
    cases tokens' with
    | nil => cases same
    | cons t' tokens' =>
      obtain ⟨here, later⟩ := List.cons.inj same
      rw [faultOf_cons, faultOf_cons, Option.map_or, Option.map_or, Token.complaint_eq here, ih later]

theorem read_of_match? {source : String} {tokens : List Token} {e : Expr}
    (matched : match? source.toList = some (tokens, e)) :
    read source = match faultOf tokens with
      | some fault => .error fault
      | none => .ok e := by
  simp only [read, matched]
  rfl

/-- The grammar makes the same tree of the same lexemes, wherever they stand. -/
theorem match?_respaced {source other : List Char} {tokens : List Token} {e : Expr}
    (respaced : Respaced source other)
    (matched : match? source = some (tokens, e)) :
    ∃ tokens' e', match? other = some (tokens', e') ∧ tokens.map (·.lexeme) = tokens'.map (·.lexeme) ∧
      e.withoutSpans = e'.withoutSpans := by
  obtain ⟨scanned, whole⟩ := match?_eq_some_iff.mp matched
  obtain ⟨tokens', scanned', same⟩ := (respaced.lexes (Lexes.of_scan? scanned)).all?
  have erased : tokens'.map Token.withoutSpan = tokens.map Token.withoutSpan := by
    rw [map_withoutSpan, map_withoutSpan, same]
  have tree := Grammar.whole?_erases (byteSize source) tokens
  rw [whole, ← erased, Grammar.whole?_erases (byteSize other) tokens'] at tree
  obtain ⟨e', whole', same'⟩ := Option.map_eq_some_iff.mp tree
  exact ⟨tokens', e', match?_eq_some_iff.mpr ⟨scanned', whole'⟩, same.symm, same'.symm⟩

/-- How much space there is between the tokens of a text makes no difference: with more or less of it the text is
still one that the grammar matches, and it is read as the same expression or refused for the same reason. -/
theorem read_respaced {source other : String} (respaced : Respaced source.toList other.toList)
    (matched : (match? source.toList).isSome) :
    (match? other.toList).isSome ∧
    ((∃ e again, read source = .ok e ∧ read other = .ok again ∧ e.withoutSpans = again.withoutSpans) ∨
      ∃ fault again, read source = .error fault ∧ read other = .error again ∧ fault.IsSemantic ∧ again.IsSemantic ∧
        fault.diagnostic.message = again.diagnostic.message ∧ fault.diagnostic.hint = again.diagnostic.hint) := by
  obtain ⟨⟨tokens, e⟩, matched⟩ := Option.isSome_iff_exists.mp matched
  obtain ⟨tokens', e', matched', lexemes, same⟩ := match?_respaced respaced matched
  refine ⟨Option.isSome_iff_exists.mpr ⟨_, matched'⟩, ?_⟩
  have complaints := complaint_eq_of_lexemes lexemes
  rw [read_of_match? matched, read_of_match? matched']
  cases found : faultOf tokens with
  | none =>
    rw [found, Option.map_none, eq_comm, Option.map_eq_none_iff] at complaints
    rw [complaints]
    exact .inl ⟨e, e', rfl, rfl, same⟩
  | some fault =>
    rw [found, Option.map_some, eq_comm, Option.map_eq_some_iff] at complaints
    obtain ⟨again, found', agree⟩ := complaints
    rw [found']
    obtain ⟨message, hint⟩ := Prod.mk.inj agree
    exact .inr ⟨fault, again, rfl, rfl, isSemantic_of_faultOf found, isSemantic_of_faultOf found', message.symm,
      hint.symm⟩

theorem read_respaced_bracket :
    let source := "1 ?\t[2]: \"a  b\""
    let other := "\n1  ? [2]:\r\n\"a  b\" "
    Respaced source.toList other.toList ∧ (match? source.toList).isSome ∧ (match? other.toList).isSome ∧
      ((∃ e again, read source = .ok e ∧ read other = .ok again ∧ e.withoutSpans = again.withoutSpans) ∨
        ∃ fault again, read source = .error fault ∧ read other = .error again ∧ fault.IsSemantic ∧
          again.IsSemantic ∧ fault.diagnostic.message = again.diagnostic.message ∧
          fault.diagnostic.hint = again.diagnostic.hint) := by
  intro source other
  have blank {cs : List Char} (all : cs.all isBlank = true) : Blank cs := List.all_eq_true.mp all
  have run {a b cs ds : List Char} (some : a ≠ []) (some' : b ≠ []) (all : a.all isBlank = true)
      (all' : b.all isBlank = true) (behind : Spaced cs ds) : Spaced (a ++ cs) (b ++ ds) :=
    .blanks some some' (blank all) (blank all') behind
  have quoted : Spaced "\"a  b\"".toList "\"a  b\" ".toList := by
    have decoded : Quoted.decode "\"a  b\"".toList = some ("a  b".toList, "\"a  b\"".toList, []) := rfl
    exact .literal decoded (.ends (blank rfl) (blank rfl) : Spaced [] [' '])
  have branch : Spaced ": \"a  b\"".toList ":\r\n\"a  b\" ".toList :=
    .solid rfl (run (List.cons_ne_nil ' ' []) (List.cons_ne_nil '\r' ['\n']) rfl rfl quoted)
  have list : Spaced "[2]: \"a  b\"".toList "[2]:\r\n\"a  b\" ".toList :=
    .solid rfl (.solid rfl (.solid rfl branch))
  have question : Spaced "?\t[2]: \"a  b\"".toList "? [2]:\r\n\"a  b\" ".toList :=
    .solid rfl (run (List.cons_ne_nil '\t' []) (List.cons_ne_nil ' ' []) rfl rfl list)
  have whole : Spaced "1 ?\t[2]: \"a  b\"".toList "1  ? [2]:\r\n\"a  b\" ".toList :=
    .solid rfl (run (List.cons_ne_nil ' ' []) (List.cons_ne_nil ' ' [' ']) rfl rfl question)
  have behind : other.toList = '\n' :: "1  ? [2]:\r\n\"a  b\" ".toList := by decide
  have respaced : Respaced source.toList other.toList :=
    ⟨[], ['\n'], _, _, blank rfl, blank rfl, whole, rfl, behind⟩
  have matched : (match? source.toList).isSome := by decide +kernel
  exact ⟨respaced, matched, read_respaced respaced matched⟩

end LazyExpr
