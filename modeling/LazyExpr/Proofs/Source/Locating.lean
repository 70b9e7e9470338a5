import LazyExpr.Proofs.Syntax.Tokens

namespace LazyExpr

namespace Location

/-- Where the text goes on behind these characters. -/
def behind (l : Location) (cs : List Char) : Location := cs.foldl after l

theorem advance_append (l : Location) (here : Nat) (front rest : List Char) :
    advance (here + byteSize front) here l (front ++ rest) = l.behind front := by
  induction front generalizing l here with
  | nil =>
    cases rest with
    | nil => rfl
    | cons c rest => exact if_pos (Nat.le_refl _)
  | cons c front ih =>
    have further : ¬ here + byteSize (c :: front) ≤ here := by
      have size := c.utf8Size_pos
      simp only [byteSize]
      omega
    rw [List.cons_append, advance, if_neg further, byteSize, ← Nat.add_assoc]
    exact ih (l.after c) (here + c.utf8Size)

/-- A byte offset between two characters is located by the characters in front of it. -/
theorem of_append (front rest : List Char) : Location.of (front ++ rest) (byteSize front) = first.behind front := by
  have moved := advance_append first 0 front rest
  rwa [Nat.zero_add] at moved

theorem behind_append (l : Location) (front cs : List Char) : l.behind (front ++ cs) = (l.behind front).behind cs :=
  List.foldl_append

/-- Each line feed begins a line. -/
theorem line_behind (l : Location) (cs : List Char) : (l.behind cs).line = l.line + cs.count '\n' := by
  induction cs generalizing l with
  | nil => rfl
  | cons c cs ih =>
    show ((l.after c).behind cs).line = _
    rw [ih, List.count_cons]
    unfold after
    by_cases feed : c = '\n'
    · simp only [feed, if_true, beq_self_eq_true]
      omega
    · simp only [feed, if_false, beq_iff_eq]
      omega

/-- Inside a line each character is a column. -/
theorem behind_of_plain (l : Location) {cs : List Char} (plain : '\n' ∉ cs) :
    l.behind cs = ⟨l.line, l.column + cs.length⟩ := by
  induction cs generalizing l with
  | nil => rfl
  | cons c cs ih =>
    obtain ⟨here, behind⟩ := not_or.mp (List.mem_cons.not.mp plain)
    show (l.after c).behind cs = _
    rw [ih _ behind, after, if_neg (Ne.symm here)]
    simp only [List.length_cons]
    congr 1
    omega

end Location

/-- A line begins behind these characters: there are none, or the last one is a line feed. -/
def LineBegins (before : List Char) : Prop := ∀ c ∈ before.getLast?, c = '\n'

namespace LineBegins

variable {before : List Char} {c : Char}

theorem tail (begins : LineBegins (c :: before)) : LineBegins before := by
  cases before with
  | nil => nofun
  | cons => exact begins

theorem nil : LineBegins [] := nofun

theorem cons (begins : LineBegins before) (feed : before = [] → c = '\n') : LineBegins (c :: before) := by
  cases before with
  | nil => exact fun _ last => Option.some.inj last ▸ feed rfl
  | cons => exact begins

theorem tail_ne_nil (begins : LineBegins (c :: before)) (other : c ≠ '\n') : before ≠ [] := by
  rintro rfl
  exact other (begins c rfl)

theorem count_pos (begins : LineBegins before) (some : before ≠ []) : 0 < before.count '\n' := by
  have last := begins (before.getLast some) (List.getLast?_eq_some_getLast some)
  exact List.count_pos_iff.mpr (last ▸ List.getLast_mem some)

theorem column (begins : LineBegins before) : (Location.first.behind before).column = 1 := by
  rcases List.eq_nil_or_concat before with rfl | ⟨front, c, rfl⟩
  · rfl
  · rw [List.concat_eq_append] at begins ⊢
    obtain rfl : c = '\n' := begins c List.getLast?_concat
    rw [Location.behind_append]
    rfl

/-- A place in a line is located by the line feeds in front of the line and the characters in front of the place. -/
theorem location (begins : LineBegins before) {left : List Char} (plain : '\n' ∉ left) (rest : List Char) :
    Location.of (before ++ (left ++ rest)) (byteSize before + byteSize left) =
      ⟨before.count '\n' + 1, left.length + 1⟩ := by
  rw [← List.append_assoc, ← byteSize_append, Location.of_append, Location.behind_append,
    Location.behind_of_plain _ plain, begins.column, Location.line_behind]
  simp only [Location.first, Nat.add_comm]

end LineBegins

/-- Every text ends in a line that has begun, perhaps just now. -/
theorem exists_lineBegins (front : List Char) :
    ∃ before left, front = before ++ left ∧ LineBegins before ∧ '\n' ∉ left := by
  by_cases feed : '\n' ∈ front
  · obtain ⟨left, before, split, plain⟩ := List.eq_append_cons_of_mem (List.mem_reverse.mpr feed)
    refine ⟨before.reverse ++ ['\n'], left.reverse, ?_, ?_, List.mem_reverse.not.mpr plain⟩
    · rw [← List.reverse_reverse front, split]
      simp
    · exact fun c last => Option.some.inj (last.symm.trans List.getLast?_concat)
  · exact ⟨[], front, rfl, .nil, feed⟩

theorem linesWithEnd_ne_nil {cs : List Char} (some : cs ≠ []) : linesWithEnd cs ≠ [] := by
  cases cs with
  | nil => exact absurd rfl some
  | cons c cs =>
    rw [linesWithEnd]
    split
    · exact List.cons_ne_nil _ _
    · split <;> exact List.cons_ne_nil _ _

/-- Text behind a line feed does not belong to the lines in front of it. -/
theorem linesWithEnd_append {before : List Char} (begins : LineBegins before) (rest : List Char) :
    linesWithEnd (before ++ rest) = linesWithEnd before ++ linesWithEnd rest := by
  induction before with
  | nil => rfl
  | cons c before ih =>
    rw [List.cons_append, linesWithEnd, linesWithEnd, ih begins.tail]
    by_cases feed : c = '\n'
    · rw [if_pos feed, if_pos feed]
      rfl
    · have more := begins.tail_ne_nil feed
      rw [if_neg feed, if_neg feed]
      cases lines : linesWithEnd before with
      | nil => exact absurd lines (linesWithEnd_ne_nil more)
      | cons line others => rfl

theorem length_linesWithEnd {before : List Char} (begins : LineBegins before) :
    (linesWithEnd before).length = before.count '\n' := by
  induction before with
  | nil => rfl
  | cons c before ih =>
    rw [linesWithEnd, List.count_cons]
    by_cases feed : c = '\n'
    · rw [if_pos feed, List.length_cons, ih begins.tail, feed]
      rfl
    · have more := begins.tail_ne_nil feed
      rw [if_neg feed, ← ih begins.tail]
      cases lines : linesWithEnd before with
      | nil => exact absurd lines (linesWithEnd_ne_nil more)
      | cons line others => simp [feed]

theorem linesWithEnd_feed {line : List Char} (plain : '\n' ∉ line) (after : List Char) :
    linesWithEnd (line ++ '\n' :: after) = (line ++ ['\n']) :: linesWithEnd after := by
  induction line with
  | nil => exact if_pos rfl
  | cons c line ih =>
    obtain ⟨here, behind⟩ := not_or.mp (List.mem_cons.not.mp plain)
    rw [List.cons_append, linesWithEnd, if_neg (Ne.symm here), ih behind]
    rfl

theorem linesWithEnd_last {line : List Char} (plain : '\n' ∉ line) (some : line ≠ []) :
    linesWithEnd line = [line] := by
  induction line with
  | nil => exact absurd rfl some
  | cons c line ih =>
    obtain ⟨here, behind⟩ := not_or.mp (List.mem_cons.not.mp plain)
    rw [linesWithEnd, if_neg (Ne.symm here)]
    cases line with
    | nil => rfl
    | cons => rw [ih behind (List.cons_ne_nil _ _)]

/-- What stands behind a line begins with its end: a line feed, perhaps with a carriage return in front of it, or
nothing if the text ends. -/
inductive LineEnds (line : List Char) : List Char → Prop
  | feed (after : List Char) : line.getLast? ≠ some '\r' → LineEnds line ('\n' :: after)
  | returned (after : List Char) : LineEnds line ('\r' :: '\n' :: after)
  | text : LineEnds line []

theorem withoutLineEnd_feed {line : List Char} (single : line.getLast? ≠ some '\r') :
    withoutLineEnd (line ++ ['\n']) = line := by
  rcases List.eq_nil_or_concat line with rfl | ⟨front, c, rfl⟩
  · rfl
  · rw [List.concat_eq_append] at single ⊢
    rw [List.getLast?_concat] at single
    have other : c ≠ '\r' := fun same => single (congrArg some same)
    simp [withoutLineEnd, other]

theorem withoutLineEnd_returned (line : List Char) : withoutLineEnd (line ++ ['\r', '\n']) = line := by
  simp [withoutLineEnd]

theorem withoutLineEnd_last {line : List Char} (plain : '\n' ∉ line) : withoutLineEnd line = line := by
  rcases List.eq_nil_or_concat line with rfl | ⟨front, c, rfl⟩
  · rfl
  · rw [List.concat_eq_append] at plain ⊢
    have other : c ≠ '\n' := by
      rintro rfl
      exact plain (List.mem_append_right _ (List.mem_singleton_self _))
    simp [withoutLineEnd, other]

/-- A line of a text, without its end, and what stands in front of it and behind it. -/
structure LineAt (source before line rest : List Char) : Prop where
  split : source = before ++ (line ++ rest)
  begins : LineBegins before
  plain : '\n' ∉ line
  ends : LineEnds line rest

namespace LineAt

variable {source before line rest : List Char}

/-- The first of the lines from there on is this one. Behind the last line end there is none. -/
theorem head (found : LineAt source before line rest) :
    (((linesWithEnd (line ++ rest)).map withoutLineEnd)[0]?).getD [] = line := by
  cases found.ends with
  | feed after single =>
    rw [linesWithEnd_feed found.plain]
    exact withoutLineEnd_feed single
  | returned after =>
    have plain : '\n' ∉ line ++ ['\r'] := by
      rw [List.mem_append, not_or]
      exact ⟨found.plain, by decide⟩
    have split : line ++ '\r' :: '\n' :: after = (line ++ ['\r']) ++ '\n' :: after := by simp
    rw [split, linesWithEnd_feed plain, List.append_assoc]
    exact withoutLineEnd_returned line
  | text =>
    rw [List.append_nil]
    by_cases empty : line = []
    · rw [empty]
      rfl
    · rw [linesWithEnd_last found.plain empty]
      exact withoutLineEnd_last found.plain

/-- The line has the number that its line feeds give it. -/
theorem number (found : LineAt source before line rest) :
    ((sourceLines source)[before.count '\n']?).getD [] = line := by
  have length : ((linesWithEnd before).map withoutLineEnd).length = before.count '\n' := by
    rw [List.length_map, length_linesWithEnd found.begins]
  rw [sourceLines, found.split, linesWithEnd_append found.begins, List.map_append,
    List.getElem?_append_right (Nat.le_of_eq length), length, Nat.sub_self]
  exact found.head

theorem location (found : LineAt source before line rest) {left right : List Char} (split : line = left ++ right) :
    Location.of source (byteSize before + byteSize left) = ⟨before.count '\n' + 1, left.length + 1⟩ := by
  have plain : '\n' ∉ left := by
    intro member
    exact found.plain (split ▸ List.mem_append_left right member)
  rw [found.split, split, List.append_assoc]
  exact found.begins.location plain (right ++ rest)

end LineAt

end LazyExpr
