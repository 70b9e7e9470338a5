import LazyExpr.Proofs.Source.Underlining
import LazyExpr.Proofs.Syntax.Nesting

namespace LazyExpr

/-- What is left of a text without its first `n` lines, if a line feed ends so many. -/
def dropLines : Nat → List Char → Option (List Char)
  | 0, source => some source
  | _ + 1, [] => none
  | n + 1, c :: rest => if c = '\n' then dropLines n rest else dropLines (n + 1) rest

/-- What is left of a text without its first `n` characters, if there are so many in front of the first line
feed. -/
def dropColumns : Nat → List Char → Option (List Char)
  | 0, source => some source
  | _ + 1, [] => none
  | n + 1, c :: rest => if c = '\n' then none else dropColumns n rest

theorem dropLines_append {before : List Char} (begins : LineBegins before) (rest : List Char) :
    dropLines (before.count '\n') (before ++ rest) = some rest := by
  induction before with
  | nil => rw [List.count_nil, List.nil_append, dropLines]
  | cons c before ih =>
    by_cases feed : c = '\n'
    · rw [feed, List.count_cons_self, List.cons_append, dropLines, if_pos rfl]
      exact ih begins.tail
    · -- The line goes on, so that a line feed is still to come.
      obtain ⟨n, count⟩ := Nat.exists_eq_add_one.mpr (begins.tail.count_pos (begins.tail_ne_nil feed))
      rw [List.count_cons_of_ne feed, count, List.cons_append, dropLines, if_neg feed, ← count]
      exact ih begins.tail

theorem dropLines_eq_some_iff {n : Nat} {source rest : List Char} :
    dropLines n source = some rest ↔
      ∃ before, source = before ++ rest ∧ LineBegins before ∧ before.count '\n' = n := by
  constructor
  · intro dropped
    fun_induction dropLines n source with
    | case1 source => exact ⟨[], Option.some.inj dropped, .nil, rfl⟩
    | case2 => exact absurd dropped (Option.some_ne_none _).symm
    | case3 n behind ih =>
      obtain ⟨before, rfl, begins, rfl⟩ := ih dropped
      exact ⟨'\n' :: before, rfl, begins.cons fun _ => rfl, List.count_cons_self⟩
    | case4 n c behind other ih =>
      obtain ⟨before, rfl, begins, count⟩ := ih dropped
      refine ⟨c :: before, rfl, begins.cons ?_, (List.count_cons_of_ne other).trans count⟩
      rintro rfl
      exact absurd count (Nat.succ_ne_zero n).symm
  · rintro ⟨before, rfl, begins, rfl⟩
    exact dropLines_append begins rest

theorem dropColumns_append {left : List Char} (plain : '\n' ∉ left) (rest : List Char) :
    dropColumns left.length (left ++ rest) = some rest := by
  induction left with
  | nil => rw [List.length_nil, List.nil_append, dropColumns]
  | cons c left ih =>
    obtain ⟨here, behind⟩ := not_or.mp (List.mem_cons.not.mp plain)
    rw [List.length_cons, List.cons_append, dropColumns, if_neg (Ne.symm here)]
    exact ih behind

theorem dropColumns_eq_some_iff {n : Nat} {source rest : List Char} :
    dropColumns n source = some rest ↔ ∃ left, source = left ++ rest ∧ '\n' ∉ left ∧ left.length = n := by
  constructor
  · intro dropped
    fun_induction dropColumns n source with
    | case1 source => exact ⟨[], Option.some.inj dropped, List.not_mem_nil, rfl⟩
    | case2 => exact absurd dropped (Option.some_ne_none _).symm
    | case3 => exact absurd dropped (Option.some_ne_none _).symm
    | case4 n c behind other ih =>
      obtain ⟨left, rfl, plain, rfl⟩ := ih dropped
      refine ⟨c :: left, rfl, ?_, rfl⟩
      exact List.mem_cons.not.mpr (not_or.mpr ⟨Ne.symm other, plain⟩)
  · rintro ⟨left, rfl, plain, rfl⟩
    exact dropColumns_append plain rest

namespace Location

variable {l : Location} {source rest : List Char} {offset : Nat}

/-- The text behind a location: without the lines in front of its line and the characters in front of its column. -/
def rest? (l : Location) (source : List Char) : Option (List Char) :=
  match l with
  | ⟨line + 1, column + 1⟩ => (dropLines line source).bind (dropColumns column)
  | _ => none

/-- The byte offset at which the text behind a location begins. -/
def offset? (l : Location) (source : List Char) : Option Nat :=
  (l.rest? source).map fun rest => byteSize source - byteSize rest

/-- What a location leaves of a text is what stands behind a place with this location. -/
theorem rest?_eq_some_iff :
    l.rest? source = some rest ↔ ∃ front, source = front ++ rest ∧ Location.of source (byteSize front) = l := by
  constructor
  · intro dropped
    unfold rest? at dropped
    split at dropped
    · obtain ⟨behind, lines, columns⟩ := Option.bind_eq_some_iff.mp dropped
      obtain ⟨before, rfl, begins, rfl⟩ := dropLines_eq_some_iff.mp lines
      obtain ⟨left, rfl, plain, rfl⟩ := dropColumns_eq_some_iff.mp columns
      refine ⟨before ++ left, (List.append_assoc ..).symm, ?_⟩
      rw [byteSize_append]
      exact begins.location plain rest
    · exact absurd dropped (Option.some_ne_none _).symm
  · rintro ⟨front, rfl, rfl⟩
    obtain ⟨before, left, rfl, begins, plain⟩ := exists_lineBegins front
    rw [List.append_assoc, byteSize_append, begins.location plain, rest?, dropLines_append begins,
      Option.bind_some, dropColumns_append plain]

/-- A location leads to a byte offset exactly if this is a place between two characters and is located there. -/
theorem offset?_eq_some_iff :
    l.offset? source = some offset ↔ Boundary source offset ∧ Location.of source offset = l := by
  have size (front rest : List Char) : byteSize (front ++ rest) - byteSize rest = byteSize front := by
    rw [byteSize_append, Nat.add_sub_cancel]
  rw [offset?, Option.map_eq_some_iff]
  constructor
  · rintro ⟨rest, found, rfl⟩
    obtain ⟨front, rfl, located⟩ := rest?_eq_some_iff.mp found
    rw [size]
    exact ⟨⟨front, rest, rfl, rfl⟩, located⟩
  · rintro ⟨⟨front, rest, rfl, rfl⟩, located⟩
    exact ⟨rest, rest?_eq_some_iff.mpr ⟨front, rfl, located⟩, size front rest⟩

end Location

/-- The line of a text, without its end, that holds a byte offset: the offset stands behind the beginning of the
line, and no line feed stands between the two. -/
def LineHolding (source : List Char) (offset : Nat) (line : List Char) : Prop :=
  ∃ before rest, LineAt source before line rest ∧
    ∃ left right, line ++ rest = left ++ right ∧ '\n' ∉ left ∧ offset = byteSize before + byteSize left

/-- The line that holds an offset has the number of its location. -/
theorem LineHolding.number {source line : List Char} {offset : Nat} (holding : LineHolding source offset line) :
    ((sourceLines source)[(Location.of source offset).line - 1]?).getD [] = line := by
  obtain ⟨before, rest, found, left, right, split, plain, rfl⟩ := holding
  have located :
      Location.of source (byteSize before + byteSize left) = ⟨before.count '\n' + 1, left.length + 1⟩ := by
    rw [found.split, split]
    exact found.begins.location plain right
  rw [located]
  exact found.number

theorem exists_lineEnds (cs : List Char) : ∃ line rest, cs = line ++ rest ∧ '\n' ∉ line ∧ LineEnds line rest := by
  by_cases feed : '\n' ∈ cs
  · obtain ⟨line, after, rfl, plain⟩ := List.eq_append_cons_of_mem feed
    by_cases returned : line.getLast? = some '\r'
    · obtain ⟨line, rfl⟩ := List.getLast?_eq_some_iff.mp returned
      refine ⟨line, '\r' :: '\n' :: after, by simp, ?_, .returned after⟩
      exact fun member => plain (List.mem_append_left _ member)
    · exact ⟨line, '\n' :: after, rfl, plain, .feed after returned⟩
  · exact ⟨cs, [], (List.append_nil cs).symm, feed, .text⟩

/-- A place between two characters is held by a line, at the end of a text by an empty one if need be. -/
theorem Boundary.lineHolding {source : List Char} {offset : Nat} (boundary : Boundary source offset) :
    ∃ line, LineHolding source offset line := by
  obtain ⟨front, back, rfl, rfl⟩ := boundary
  obtain ⟨before, left, rfl, begins, plain⟩ := exists_lineBegins front
  obtain ⟨line, rest, split, plainLine, ends⟩ := exists_lineEnds (left ++ back)
  have found : LineAt (before ++ left ++ back) before line rest :=
    ⟨by rw [List.append_assoc, split], begins, plainLine, ends⟩
  exact ⟨line, before, rest, found, left, back, split.symm, plain, byteSize_append before left⟩

/-- A place between two characters is found again from its location, which no other place has, and the line that a
report about it shows is the one that holds it. -/
theorem Boundary.location_identifies {source : String} {offset : Nat} (boundary : Boundary source.toList offset) :
    (Location.of source.toList offset).offset? source.toList = some offset ∧
      (∀ other, Boundary source.toList other →
        Location.of source.toList other = Location.of source.toList offset → other = offset) ∧
      ∃ line, (∀ other, LineHolding source.toList offset other ↔ other = line) ∧
        ∀ d : Diagnostic, d.span.start = offset →
          d.withSource source =
            d.heading source ++ (lineNumber (d.place source).line ++ " | " ++ String.ofList line) ++
              "\n" ++ d.caretRow source ++ d.advice := by
  have back := Location.offset?_eq_some_iff.mpr ⟨boundary, rfl⟩
  refine ⟨back, ?_, ?_⟩
  · intro other boundary' same
    have back' := Location.offset?_eq_some_iff.mpr ⟨boundary', same⟩
    exact Option.some.inj (back'.symm.trans back)
  · obtain ⟨line, holding⟩ := boundary.lineHolding
    refine ⟨line, fun other => ?_, fun d start => ?_⟩
    · constructor
      · exact fun holding' => holding'.number.symm.trans holding.number
      · rintro rfl
        exact holding
    · rw [d.withSource_eq, Diagnostic.sourceRow, Diagnostic.place, start, holding.number]

theorem Boundary.location_identifies_returned :
    let source : String := "é\r\nx ü\r\n"
    Boundary source.toList 9 ∧
      (Location.of source.toList 9).offset? source.toList = some 9 ∧
      (∀ other, Boundary source.toList other →
        Location.of source.toList other = Location.of source.toList 9 → other = 9) ∧
      ∃ line, (∀ other, LineHolding source.toList 9 other ↔ other = line) ∧
        ∀ d : Diagnostic, d.span.start = 9 →
          d.withSource source =
            d.heading source ++ (lineNumber (d.place source).line ++ " | " ++ String.ofList line) ++
              "\n" ++ d.caretRow source ++ d.advice := by
  intro source
  have boundary : Boundary source.toList 9 := ⟨"é\r\nx ü\r".toList, ['\n'], by decide +kernel, by decide +kernel⟩
  exact ⟨boundary, boundary.location_identifies⟩

end LazyExpr
