import LazyExpr.Proofs.Induction
import LazyExpr.Proofs.Syntax.Building

namespace LazyExpr

open Lexeme (separated)

/-- The numeral of the integer just behind the largest word, which is what is written for the least word
behind its sign. -/
def pastWords : Lexeme := .numeral "9223372036854775808".toList

/-- A text with that numeral in it is no expression. -/
theorem Writes.not_read {text : String} {ls : List Lexeme} (writes : Writes text ls) (past : pastWords ∈ ls)
    (e : Expr) : read text ≠ .ok e := by
  obtain ⟨tokens, scanned, rfl⟩ := writes.all?
  obtain ⟨t, member, same⟩ := List.mem_map.mp past
  obtain ⟨lexeme, s⟩ := t
  obtain rfl : lexeme = pastWords := same
  have fault : Token.fault? ⟨pastWords, s⟩ = some (.numeral s "9223372036854775808") := rfl
  intro accepted
  obtain ⟨found, matched, faultless⟩ := read_eq_ok_iff.mp accepted
  cases scanned.symm.trans (match?_eq_some_iff.mp matched).1
  rw [List.findSome?_eq_none_iff.mp faultless _ member] at fault
  cases fault

theorem Lexeme.mem_separated {items : List (List Lexeme)} {item : List Lexeme} (among : item ∈ items)
    {lexeme : Lexeme}
    (inside : lexeme ∈ item) : lexeme ∈ separated items := by
  cases items with
  | nil => cases among
  | cons first others =>
    rw [separated, List.mem_append]
    rcases List.mem_cons.mp among with rfl | among
    · exact .inl inside
    · exact .inr (List.mem_flatMap.mpr ⟨item, among, List.mem_cons_of_mem _ inside⟩)

/-- The text is made of lexemes, the numeral past the words among them if it has to be. -/
def Lexed (text : String) (past : Prop) : Prop := ∃ ls, Writes text ls ∧ (past → pastWords ∈ ls)

namespace Lexed

variable {text : String} {past : Prop}

theorem parenthesized (lexed : Lexed text past) (needed : Bool) :
    Lexed (Printable.parenthesized needed text) past := by
  obtain ⟨ls, writes, inside⟩ := lexed
  cases needed with
  | false => exact ⟨ls, writes, inside⟩
  | true =>
    refine ⟨_, writes.parens, fun holds => List.mem_cons_of_mem _ ?_⟩
    exact List.mem_append_left _ (inside holds)

theorem mono {past' : Prop} (lexed : Lexed text past) (less : past' → past) : Lexed text past' := by
  obtain ⟨ls, writes, inside⟩ := lexed
  exact ⟨ls, writes, fun holds => inside (less holds)⟩

/-- A single token of another kind. -/
theorem token {lexeme : Lexeme} (writes : Writes text [lexeme]) (none : ¬ past) : Lexed text past :=
  ⟨_, writes, fun holds => absurd holds none⟩

/-- Items with commas between them. -/
theorem each {α : Type} {texts : α → String} {pasts : α → Prop} {as : List α}
    (lexed : ∀ a ∈ as, Lexed (texts a) (pasts a)) :
    ∃ items, List.Forall₂ Writes (as.map texts) items ∧ ((∃ a ∈ as, pasts a) → pastWords ∈ separated items) := by
  have found : ∃ items, List.Forall₂ Writes (as.map texts) items ∧
      ((∃ a ∈ as, pasts a) → ∃ item ∈ items, pastWords ∈ item) := by
    induction as with
    | nil => exact ⟨[], .nil, fun ⟨_, member, _⟩ => nomatch member⟩
    | cons a as ih =>
      obtain ⟨⟨ls, writes, inside⟩, others⟩ := List.forall_mem_cons.mp lexed
      obtain ⟨items, writesAll, insideAll⟩ := ih others
      refine ⟨ls :: items, .cons writes writesAll, ?_⟩
      rintro ⟨b, member, holds⟩
      rcases List.mem_cons.mp member with rfl | member
      · exact ⟨ls, List.mem_cons_self, inside holds⟩
      · obtain ⟨item, among, within⟩ := insideAll ⟨b, member, holds⟩
        exact ⟨item, List.mem_cons_of_mem _ among, within⟩
  obtain ⟨items, writes, inside⟩ := found
  refine ⟨items, writes, fun some => ?_⟩
  obtain ⟨item, among, within⟩ := inside some
  exact Lexeme.mem_separated among within

/-- An operand with its sign in front of it or its mark behind it. -/
theorem unary (lexed : Lexed text past) {op : Operator} (arity : op.arity = 1) :
    Lexed (if op.isPostfix then text ++ op.token else op.token ++ text) past := by
  obtain ⟨ls, writes, inside⟩ := lexed
  cases op with
  | assertPresent => exact ⟨_, writes.assert, fun holds => List.mem_append_left _ (inside holds)⟩
  | negate => exact ⟨_, writes.minus, fun holds => List.mem_cons_of_mem _ (inside holds)⟩
  | not => exact ⟨_, writes.bang, fun holds => List.mem_cons_of_mem _ (inside holds)⟩
  | _ => cases arity

theorem infixed {other : String} {past' : Prop} (lexed : Lexed text past) (lexed' : Lexed other past')
    {op : Operator}
    (infixed : op.arity = 2) : Lexed (text ++ " " ++ op.token ++ " " ++ other) (past ∨ past') := by
  obtain ⟨ls, writes, inside⟩ := lexed
  obtain ⟨rs, writes', inside'⟩ := lexed'
  refine ⟨_, writes.infixed writes' infixed, ?_⟩
  rintro (holds | holds)
  · exact List.mem_append_left _ (inside holds)
  · exact List.mem_append_right _ (List.mem_cons_of_mem _ (inside' holds))

theorem choice {yes no : String} {past' past'' : Prop} (lexed : Lexed text past) (lexed' : Lexed yes past')
    (lexed'' : Lexed no past'') : Lexed (text ++ " ? " ++ yes ++ " : " ++ no) ((past ∨ past') ∨ past'') := by
  obtain ⟨cs, writes, inside⟩ := lexed
  obtain ⟨ys, writes', inside'⟩ := lexed'
  obtain ⟨ns, writes'', inside''⟩ := lexed''
  refine ⟨_, writes.choice writes' writes'', ?_⟩
  rintro ((holds | holds) | holds)
  · exact List.mem_append_left _ (inside holds)
  · exact List.mem_append_right _ (List.mem_cons_of_mem _ (List.mem_append_left _ (inside' holds)))
  · refine List.mem_append_right _ (List.mem_cons_of_mem _ (List.mem_append_right _ ?_))
    exact List.mem_cons_of_mem _ (inside'' holds)

end Lexed

namespace Value

/-- A plain value is written with lexemes of the language. -/
theorem Plain.lexed {v : Value} (plain : v.Plain) : Lexed v.printable.render (v.Holds Int64.minValue) := by
  induction plain with
  | null => exact .token (.word isWord_null) nofun
  | undefined => exact .token (.word isWord_undefined) nofun
  | bool b => exact .token (.word (isWord_bool b)) nofun
  | string s => exact .token (.quoted s) nofun
  | int n =>
    show Lexed (toString n.toInt) _
    rcases Int.lt_or_le n.toInt 0 with negative | unsigned
    · rw [toString_of_negative negative]
      have numeral : IsNumeral (toString (-n.toInt)).toList := by
        obtain ⟨k, opposite⟩ := Int.eq_ofNat_of_zero_le (a := -n.toInt) (by omega)
        rw [opposite]
        exact (Nat.toList_repr ▸ isNumeral_toDigits k :)
      refine ⟨_, (Writes.numeral numeral).minus, ?_⟩
      rintro ⟨⟩
      exact List.mem_cons_of_mem _ (List.mem_singleton_self _)
    · refine .token (.numeral (Numeral.value?_word unsigned).1) ?_
      rintro ⟨⟩
      exact absurd unsigned (by decide)
  | @float x finite =>
    show Lexed (floatNumeral x) _
    cases decoded : Binary.ofFloat x with
    | nan => rw [decoded] at finite; exact finite.elim
    | infinite negative => rw [decoded] at finite; exact finite.elim
    | finite negative m e =>
      cases negative with
      | false => exact .token (.numeral (isNumeral_floatNumeral decoded)) nofun
      | true =>
        rw [floatNumeral_of_negative decoded]
        have numeral := isNumeral_floatNumeral (Binary.ofFloat_neg decoded)
        exact ⟨_, (Writes.numeral numeral).minus, nofun⟩
  | list _ ih =>
    obtain ⟨items, writes, inside⟩ := Lexed.each ih
    rw [← printAll_eq_map] at writes
    refine ⟨_, Writes.list writes, ?_⟩
    rintro (_ | ⟨member, holds⟩)
    exact List.mem_cons_of_mem _ (List.mem_append_left _ (inside ⟨_, member, holds⟩))

end Value

namespace Expr

/-- The integer is a literal of the tree or stands in one. -/
def Holds (n : Word) (e : Expr) : Prop := ∃ v ∈ e.literals, v.Holds n

theorem holds_of_append {n : Word} {vs ws : List Value} (holds : ∃ v ∈ vs ++ ws, v.Holds n) :
    (∃ v ∈ vs, v.Holds n) ∨ ∃ v ∈ ws, v.Holds n := by
  obtain ⟨v, member, inside⟩ := holds
  exact (List.mem_append.mp member).imp (fun among => ⟨v, among, inside⟩) fun among => ⟨v, among, inside⟩

theorem holds_of_all {n : Word} {items : List Expr} (holds : ∃ v ∈ literalsOfAll items, v.Holds n) :
    ∃ e ∈ items, e.Holds n := by
  obtain ⟨v, member, inside⟩ := holds
  obtain ⟨e, within, among⟩ := mem_literalsOfAll.mp member
  exact ⟨e, within, v, among, inside⟩

theorem Built.lexed {e : Expr} (built : e.Built) : Lexed e.print (e.Holds Int64.minValue) := by
  induction built with
  | null => exact .token (.word isWord_null) (fun ⟨_, member, _⟩ => nomatch member)
  | literal s plain =>
    obtain ⟨ls, writes, inside⟩ := plain.lexed
    exact ⟨ls, writes, fun ⟨v, member, holds⟩ => inside (List.mem_singleton.mp member ▸ holds)⟩
  | list s _ ih =>
    obtain ⟨items, writes, inside⟩ := Lexed.each ih
    rw [← printAll_eq_map] at writes
    refine ⟨_, Writes.list writes, fun holds => List.mem_cons_of_mem _ ?_⟩
    exact List.mem_append_left _ (inside (holds_of_all holds))
  | ref s scope word => exact .token (.ref scope word) (fun ⟨_, member, _⟩ => nomatch member)
  | @field s base name safe _ word ih =>
    obtain ⟨ls, writes, inside⟩ := ih.parenthesized base.printable.isProtectedBase
    exact ⟨_, writes.field word safe, fun holds => List.mem_append_left _ (inside holds)⟩
  | @index s base key safe _ _ ihBase ihKey =>
    obtain ⟨ls, writes, inside⟩ := ihBase.parenthesized base.printable.isProtectedBase
    obtain ⟨ks, writesKey, insideKey⟩ := ihKey
    refine ⟨_, writes.index writesKey safe, fun holds => ?_⟩
    rcases holds_of_append holds with holds | holds
    · exact List.mem_append_left _ (inside holds)
    · exact List.mem_append_right _ (List.mem_append_right _ (List.mem_append_left _ (insideKey holds)))
  | coalesce s _ _ ih ihRight =>
    exact .mono (.infixed (ih.parenthesized _) (ihRight.parenthesized _) rfl) holds_of_append
  | binary s infixed _ _ ih ihRight =>
    exact .mono (.infixed (ih.parenthesized _) (ihRight.parenthesized _) infixed) holds_of_append
  | choose s _ _ _ ih ihYes ihNo =>
    refine .mono (.choice (ih.parenthesized _) (ihYes.parenthesized _) (ihNo.parenthesized _)) fun holds => ?_
    exact (holds_of_append holds).imp_left holds_of_append
  | @unary s op operand arity _ ih =>
    show Lexed (Printable.unary op operand.printable).render _
    rw [Printable.render_unary]
    exact (ih.parenthesized _).unary arity
  | call s word _ _ ih =>
    obtain ⟨items, writes, inside⟩ := Lexed.each ih
    rw [← printAll_eq_map] at writes
    refine ⟨_, Writes.call word writes, fun holds => List.mem_cons_of_mem _ (List.mem_cons_of_mem _ ?_)⟩
    exact List.mem_append_left _ (inside (holds_of_all holds))

/-- Where an expression was read from does not matter for how it is printed. -/
theorem printable_withoutSpans (e : Expr) : e.withoutSpans.printable = e.printable := by
  have texts {items : List Expr} (same : ∀ e ∈ items, e.withoutSpans.printable = e.printable) :
      printAll (listWithoutSpans items) = printAll items := by
    rw [listWithoutSpans_eq_map, printAll_eq_map, printAll_eq_map, List.map_map]
    exact List.map_congr_left fun e member => congrArg Printable.render (same e member)
  induction e with
  | list s items ih => simp only [withoutSpans, printable, texts ih]
  | call s name args ih => simp only [withoutSpans, printable, texts ih]
  | _ => simp_all only [withoutSpans, printable]

end Expr

/-- A tree that a host builds is printed as a text that is read, and printed as that text again, unless the
least word is among its literals. What is written for that one behind its sign is no word. -/
theorem print_stable_iff {e : Expr} (built : e.Built) :
    (∃ again, read e.print = .ok again ∧ again.print = e.print) ↔ ¬ e.Holds Int64.minValue := by
  constructor
  · rintro ⟨again, accepted, _⟩ holds
    obtain ⟨ls, writes, inside⟩ := built.lexed
    exact writes.not_read (inside holds) again accepted
  · intro fits
    obtain ⟨e', restates⟩ := built.restated fun v member holds => fits ⟨v, member, holds⟩
    obtain ⟨readable, legible⟩ := restates.faithful
    obtain ⟨again, accepted, same⟩ := (readable.spells legible).spells.whole.read
    have text : e'.print = e.print := restates.text
    refine ⟨again, text ▸ accepted, ?_⟩
    rw [← text]
    unfold Expr.print
    rw [← again.printable_withoutSpans, same, e'.printable_withoutSpans]

theorem print_stable_signed_zero :
    let e : Expr := .field .synthetic (.literal .synthetic (.float (-0.0))) "price" false
    e.Built ∧ ¬ e.Holds Int64.minValue ∧ ∃ again, read e.print = .ok again ∧ again.print = e.print := by
  intro e
  have zero : Binary.ofFloat (-0.0) = .finite true 0 (-1074) := by decide +kernel
  have plain : (Value.float (-0.0)).Plain := .float (by rw [zero]; trivial)
  have word : IsWord "price" := ⟨'p', "rice".toList, rfl, by decide, List.all_eq_true.mp rfl⟩
  have built : e.Built := .field _ _ (.literal _ plain) word
  have fits : ¬ e.Holds Int64.minValue := by
    rintro ⟨v, member, holds⟩
    cases List.mem_singleton.mp member
    cases holds
  exact ⟨built, fits, (print_stable_iff built).mpr fits⟩

theorem print_not_stable : (Expr.literal .synthetic (.int Int64.minValue)).Built ∧
    ¬ ∃ again, read (Expr.literal .synthetic (.int Int64.minValue)).print = .ok again ∧
      again.print = (Expr.literal .synthetic (.int Int64.minValue)).print := by
  have built : (Expr.literal .synthetic (.int Int64.minValue)).Built := .literal _ (.int _)
  refine ⟨built, ?_⟩
  rintro ⟨again, accepted, _⟩
  obtain ⟨ls, writes, inside⟩ := built.lexed
  exact writes.not_read (inside ⟨_, List.mem_singleton_self _, .int⟩) again accepted

end LazyExpr
