import LazyExpr.Proofs.Source.Locating
import LazyExpr.Source.Diagnostic

namespace LazyExpr

/-- The span reaches from the first to the last of the characters `marked`, of which there are some, and they stand
between `left` and `right` in a line of the text. -/
def Span.InLine (s : Span) (source left marked right : List Char) : Prop :=
  ∃ before rest, LineAt source before (left ++ marked ++ right) rest ∧ marked ≠ [] ∧
    s = ⟨byteSize before + byteSize left, byteSize before + byteSize left + byteSize marked⟩

/-- The upper row ends in a line of a text, and in the lower row there are carets in the columns that the characters
`marked` of this line have in the upper row, and in no other columns. -/
def Underlines (upper lower left marked right : List Char) : Prop :=
  ∃ gutter, upper = gutter ++ (left ++ marked ++ right) ∧
    ∀ column, lower[column]? = some '^' ↔
      gutter.length + left.length ≤ column ∧ column < gutter.length + left.length + marked.length

theorem getElem?_carets {front : List Char} (free : '^' ∉ front) (count column : Nat) :
    (front ++ List.replicate count '^')[column]? = some '^' ↔
      front.length ≤ column ∧ column < front.length + count := by
  by_cases inside : column < front.length
  · rw [List.getElem?_append_left inside]
    refine iff_of_false (fun found => free (List.mem_of_getElem? found)) fun behind => ?_
    exact absurd inside (Nat.not_lt.mpr behind.1)
  · rw [List.getElem?_append_right (Nat.not_lt.mp inside), List.getElem?_replicate]
    split <;> simp <;> omega

/-- Runs of columns are the same only if they begin together and are equally long. -/
theorem runs_eq_iff {start start' count count' : Nat} (some : 0 < count) (some' : 0 < count') :
    (∀ column, start ≤ column ∧ column < start + count ↔ start' ≤ column ∧ column < start' + count') ↔
      start = start' ∧ count = count' := by
  constructor
  · intro same
    have first := same start
    have first' := same start'
    have last := same (start + count - 1)
    have last' := same (start' + count' - 1)
    omega
  · rintro ⟨rfl, rfl⟩ column
    exact Iff.rfl

theorem length_le_byteSize (cs : List Char) : cs.length ≤ byteSize cs := by
  induction cs with
  | nil => exact Nat.le_refl _
  | cons c cs ih =>
    have size := c.utf8Size_pos
    simp only [List.length_cons, byteSize]
    omega

/-- A text has as many bytes as characters only if each character has one byte. -/
theorem byteSize_eq_length_iff (cs : List Char) : byteSize cs = cs.length ↔ ∀ c ∈ cs, c.utf8Size = 1 := by
  induction cs with
  | nil => exact iff_of_true rfl fun _ member => absurd member List.not_mem_nil
  | cons c cs ih =>
    have size := c.utf8Size_pos
    have others := length_le_byteSize cs
    rw [List.forall_mem_cons]
    simp only [List.length_cons, byteSize]
    constructor
    · intro same
      exact ⟨by omega, ih.mp (by omega)⟩
    · rintro ⟨single, singles⟩
      have same := ih.mpr singles
      omega

theorem length_lineNumber (n : Nat) : (lineNumber n).toList.length = max 3 (Nat.toDigits 10 n).length := by
  simp only [lineNumber, String.toList_ofList, List.length_append, List.length_replicate]
  omega

namespace Diagnostic

/-- Where the span begins. -/
def place (d : Diagnostic) (source : String) : Location := Location.of source.toList d.span.start

/-- What stands above the row with the line: the message, the location and an empty row. -/
def heading (d : Diagnostic) (source : String) : String :=
  "Error: " ++ d.message ++ "\n --> " ++ toString (d.place source).line ++ ":" ++
    toString (d.place source).column ++ "\n  |\n"

/-- The row with the line of the source. -/
def sourceRow (d : Diagnostic) (source : String) : String :=
  lineNumber (d.place source).line ++ " | " ++
    String.ofList (((sourceLines source.toList)[(d.place source).line - 1]?).getD [])

/-- The row with the carets. -/
def caretRow (d : Diagnostic) (source : String) : String := "    | " ++ d.carets (d.place source).column

/-- What stands below it. -/
def advice (d : Diagnostic) : String :=
  match d.hint with
  | some hint => "\n  = hint: " ++ hint
  | none => ""

theorem withSource_eq (d : Diagnostic) (source : String) :
    d.withSource source = d.heading source ++ d.sourceRow source ++ "\n" ++ d.caretRow source ++ d.advice := by
  have gutter (marks : String) : "\n    | " ++ marks = "\n" ++ ("    | " ++ marks) := by
    have split : "\n    | " = "\n" ++ "    | " := rfl
    rw [split, String.append_assoc]
  unfold withSource heading sourceRow caretRow advice place
  cases d.hint with
  | none => simp only [String.append_assoc, String.append_empty, gutter]
  | some hint => simp only [String.append_assoc, gutter]

variable {d : Diagnostic} {source : String} {left marked right : List Char}

theorem place_eq (inside : d.span.InLine source.toList left marked right) :
    (d.place source).column = left.length + 1 := by
  obtain ⟨before, rest, found, _, same⟩ := inside
  have located := found.location (List.append_assoc left marked right)
  rw [place, same, located]

/-- The row with the line shows the whole line behind its number. -/
theorem sourceRow_eq (inside : d.span.InLine source.toList left marked right) :
    (d.sourceRow source).toList =
      ((lineNumber (d.place source).line).toList ++ [' ', '|', ' ']) ++ (left ++ marked ++ right) := by
  obtain ⟨before, rest, found, _, same⟩ := inside
  have located := found.location (List.append_assoc left marked right)
  have number : (d.place source).line - 1 = before.count '\n' := by
    rw [place, same, located]
    rfl
  rw [sourceRow, number, found.number]
  simp only [String.toList_append, String.toList_ofList]
  rfl

/-- There are carets from the column of the line on in which the characters begin, as many as they have bytes. -/
theorem caretRow_caret_iff (inside : d.span.InLine source.toList left marked right) (column : Nat) :
    (d.caretRow source).toList[column]? = some '^' ↔
      6 + left.length ≤ column ∧ column < 6 + left.length + byteSize marked := by
  let front : List Char := "    | ".toList ++ List.replicate left.length ' '
  have free : '^' ∉ front := by
    rw [List.mem_append, not_or]
    exact ⟨by decide, fun member => absurd (List.eq_of_mem_replicate member) (by decide)⟩
  have length : front.length = 6 + left.length := by
    rw [List.length_append, List.length_replicate]
    rfl
  have row : (d.caretRow source).toList = front ++ List.replicate (byteSize marked) '^' := by
    have column := place_eq inside
    obtain ⟨before, rest, _, some, same⟩ := inside
    have size := byteSize_pos some
    have count : max (d.span.stop - d.span.start) 1 = byteSize marked := by
      rw [same]
      dsimp only
      omega
    rw [caretRow, carets, column, count, String.toList_append, Nat.add_sub_cancel, List.append_assoc]
    exact congrArg _ String.toList_ofList
  rw [row, getElem?_carets free, length]

/-- The carets for a part of a line stand below this part, each character having one, exactly if its characters have
one byte each and the number of the line has no more than three digits. -/
theorem underlines_iff (inside : d.span.InLine source.toList left marked right) :
    d.withSource source = d.heading source ++ d.sourceRow source ++ "\n" ++ d.caretRow source ++ d.advice ∧
      (Underlines (d.sourceRow source).toList (d.caretRow source).toList left marked right ↔
        (∀ c ∈ marked, c.utf8Size = 1) ∧ (d.place source).line ≤ 999) := by
  refine ⟨d.withSource_eq source, ?_⟩
  have some : 0 < marked.length := by
    obtain ⟨_, _, _, some, _⟩ := inside
    exact List.length_pos_iff.mpr some
  have someBytes : 0 < byteSize marked := byteSize_pos (List.length_pos_iff.mp some)
  have digits : (Nat.toDigits 10 (d.place source).line).length ≤ 3 ↔ (d.place source).line < 1000 :=
    Nat.length_toDigits_le_iff (by decide) (by decide)
  have gutter : ((lineNumber (d.place source).line).toList ++ [' ', '|', ' ']).length = 6 ↔
      (d.place source).line ≤ 999 := by
    rw [List.length_append, length_lineNumber]
    simp only [List.length_cons, List.length_nil]
    omega
  rw [← byteSize_eq_length_iff, ← gutter]
  constructor
  · rintro ⟨gutter, upper, carets⟩
    rw [sourceRow_eq inside] at upper
    obtain rfl := List.append_cancel_right upper
    simp only [caretRow_caret_iff inside] at carets
    have same := (runs_eq_iff someBytes some).mp carets
    omega
  · rintro ⟨bytes, six⟩
    refine ⟨_, sourceRow_eq inside, fun column => ?_⟩
    rw [caretRow_caret_iff inside, six, bytes]

theorem underlines_iff_second_line :
    let d : Diagnostic := { span := ⟨11, 13⟩, message := "unknown name" }
    let source : String := "é\r\nx é + ab\n"
    d.span.InLine source.toList "x é + ".toList ['a', 'b'] [] ∧
      d.withSource source = d.heading source ++ d.sourceRow source ++ "\n" ++ d.caretRow source ++ d.advice ∧
      (Underlines (d.sourceRow source).toList (d.caretRow source).toList "x é + ".toList ['a', 'b'] [] ↔
        (∀ c ∈ ['a', 'b'], c.utf8Size = 1) ∧ (d.place source).line ≤ 999) := by
  intro d source
  have line : LineAt source.toList ['é', '\r', '\n'] ("x é + ".toList ++ ['a', 'b'] ++ []) ['\n'] :=
    ⟨by decide +kernel, fun c last => (Option.some.inj last).symm, by decide +kernel, .feed [] (by decide +kernel)⟩
  have inside : d.span.InLine source.toList "x é + ".toList ['a', 'b'] [] :=
    ⟨_, _, line, List.cons_ne_nil _ _, by decide +kernel⟩
  exact ⟨inside, underlines_iff inside⟩

/-- Below a character of two bytes there are two carets. -/
theorem not_underlines_wide :
    let d : Diagnostic := { span := ⟨0, 2⟩, message := "unknown name" }
    d.span.InLine "é".toList [] ['é'] [] ∧
      ¬ Underlines (d.sourceRow "é").toList (d.caretRow "é").toList [] ['é'] [] := by
  intro d
  have line : LineAt "é".toList [] ([] ++ ['é'] ++ []) [] := ⟨rfl, nofun, by decide, .text⟩
  refine ⟨⟨_, _, line, List.cons_ne_nil _ _, rfl⟩, ?_⟩
  rintro ⟨gutter, upper, carets⟩
  have row : (d.sourceRow "é").toList.length = 7 := by decide +kernel
  have second : (d.caretRow "é").toList[7]? = some '^' := by decide +kernel
  have size := congrArg List.length upper
  rw [row] at size
  simp only [List.length_append, List.length_cons, List.length_nil] at size
  have below := ((carets 7).mp second).2
  simp only [List.length_cons, List.length_nil] at below
  omega

end Diagnostic

end LazyExpr
