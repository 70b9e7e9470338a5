import Mathlib.Data.List.DropRight
import LazyExpr.Syntax.Mismatch

namespace LazyExpr

open Mismatch (trace Cursor)

/-- A text without the blanks that it starts with. -/
def unblanked (cs : List Char) : List Char := cs.dropWhile isBlank

theorem unblanked_unblanked (cs : List Char) : unblanked (unblanked cs) = unblanked cs :=
  List.dropWhile_idempotent _ _

theorem length_unblanked_le (cs : List Char) : (unblanked cs).length ≤ cs.length :=
  (List.dropWhile_suffix isBlank).length_le

/-- With fuel `n` or more a pattern that matches in front of a text leaves this rest of it, and nothing is left
by a pattern that fails. What is noted about the rules that fail does not matter. -/
def Pattern.Leaves (p : Pattern) (n : Nat) (cs : List Char) (left : Option (List Char)) : Prop :=
  ∀ fuel quiet offset m, n ≤ fuel → (trace fuel quiet p ⟨offset, cs⟩ m).1.map (·.rest) = left

namespace Pattern.Leaves

variable {p q : Pattern} {n n' : Nat} {cs mid rest : List Char} {left : Option (List Char)}

theorem mono (leaves : p.Leaves n cs left) (le : n ≤ n') : p.Leaves n' cs left := fun _ _ _ _ enough =>
  leaves _ _ _ _ (le.trans enough)

theorem unique {left' : Option (List Char)} (leaves : p.Leaves n cs left) (leaves' : p.Leaves n' cs left') :
    left = left' :=
  (leaves _ false 0 ⟨0, []⟩ (Nat.le_max_left n n')).symm.trans (leaves' _ _ _ _ (Nat.le_max_right n n'))

theorem matched (leaves : p.Leaves n cs (some rest)) {fuel : Nat} (quiet : Bool) (offset : Nat) (m : Mismatch)
    (enough : n ≤ fuel) : ∃ offset' m', trace fuel quiet p ⟨offset, cs⟩ m = (some ⟨offset', rest⟩, m') := by
  obtain ⟨next, found, same⟩ := Option.map_eq_some_iff.mp (leaves fuel quiet offset m enough)
  subst same
  exact ⟨next.offset, _, Prod.ext found rfl⟩

theorem failed (leaves : p.Leaves n cs none) {fuel : Nat} (quiet : Bool) (offset : Nat) (m : Mismatch)
    (enough : n ≤ fuel) : ∃ m', trace fuel quiet p ⟨offset, cs⟩ m = (none, m') :=
  ⟨_, Prod.ext (Option.map_eq_none_iff.mp (leaves fuel quiet offset m enough)) rfl⟩

/-- A pattern gives its parts one fuel less than it has. -/
theorem of_succ (step : ∀ fuel quiet offset m, n ≤ fuel →
    (trace (fuel + 1) quiet p ⟨offset, cs⟩ m).1.map (·.rest) = left) : p.Leaves (n + 1) cs left := by
  intro fuel quiet offset m enough
  obtain ⟨more, rfl⟩ := Nat.exists_eq_add_of_lt enough
  exact step (n + more) quiet offset m (Nat.le_add_right n more)

theorem text {s : String} : (Pattern.text s).Leaves 1 (s.toList ++ rest) (some rest) := by
  have after (taken : List Char) (offset : Nat) :
      (Cursor.after? ⟨offset, taken ++ rest⟩ taken).map (·.rest) = some rest := by
    induction taken generalizing offset with
    | nil => rfl
    | cons c taken ih =>
      simp only [List.cons_append, Cursor.after?, if_true]
      exact ih _
  refine of_succ fun _ _ _ _ _ => ?_
  rw [trace]
  exact after s.toList _

theorem text_none {s : String} (other : ¬ s.toList <+: cs) : (Pattern.text s).Leaves 1 cs none := by
  have after (taken cs : List Char) (offset : Nat) (other : ¬ taken <+: cs) :
      Cursor.after? ⟨offset, cs⟩ taken = none := by
    induction taken generalizing offset cs with
    | nil => exact absurd List.nil_prefix other
    | cons c taken ih =>
      cases cs with
      | nil => rfl
      | cons d cs =>
        simp only [Cursor.after?]
        split
        · rename_i same
          subst same
          exact ih cs _ fun part => other (List.cons_prefix_cons.mpr ⟨rfl, part⟩)
        · rfl
  refine of_succ fun _ _ _ _ _ => ?_
  rw [trace, after s.toList cs _ other]
  rfl

/-- A text stands there and is taken, or it does not. -/
theorem text_cases (s : String) (cs : List Char) :
    (∃ rest, cs = s.toList ++ rest ∧ (Pattern.text s).Leaves 1 cs (some rest)) ∨
      (Pattern.text s).Leaves 1 cs none := by
  by_cases part : s.toList <+: cs
  · obtain ⟨rest, rfl⟩ := part
    exact .inl ⟨rest, rfl, text⟩
  · exact .inr (text_none part)

theorem one {accepts : Char → Bool} {c : Char} (accepted : accepts c) :
    (Pattern.one accepts).Leaves 1 (c :: rest) (some rest) := by
  refine of_succ fun _ _ _ _ _ => ?_
  simp only [trace, accepted, if_true, Option.map_some]

theorem one_none {accepts : Char → Bool} (refused : ∀ c ∈ cs.head?, ¬ accepts c) :
    (Pattern.one accepts).Leaves 1 cs none := by
  refine of_succ fun _ _ _ _ _ => ?_
  cases cs with
  | nil => rfl
  | cons c cs => simp only [trace, if_neg (refused c rfl), Option.map_none]

theorem endOfText : Pattern.endOfText.Leaves 1 [] (some []) := of_succ fun _ _ _ _ _ => rfl

theorem endOfText_none (more : cs ≠ []) : Pattern.endOfText.Leaves 1 cs none := by
  refine of_succ fun _ _ _ _ _ => ?_
  cases cs with
  | nil => exact absurd rfl more
  | cons c cs => rfl

theorem blanks (cs : List Char) : Pattern.blanks.Leaves 1 cs (some (unblanked cs)) := of_succ fun _ _ _ _ _ => rfl

theorem rule (r : Rule) (body : r.body.Leaves n cs left) : (Pattern.rule r).Leaves (n + 1) cs left := by
  refine of_succ fun fuel quiet offset m enough => ?_
  rw [← body fuel (quiet || r.isAtomic) offset m enough, trace]
  rcases trace fuel (quiet || r.isAtomic) r.body ⟨offset, cs⟩ m with ⟨_ | _, _⟩ <;> rfl

theorem seq (first : p.Leaves n cs (some mid)) (second : q.Leaves n' mid left) :
    (Pattern.seq p q).Leaves (max n n' + 1) cs left := by
  refine of_succ fun fuel quiet offset m enough => ?_
  obtain ⟨offset', m', found⟩ := first.matched quiet offset m ((Nat.le_max_left n n').trans enough)
  rw [trace, found]
  exact second _ _ _ _ ((Nat.le_max_right n n').trans enough)

theorem seq_none (first : p.Leaves n cs none) : (Pattern.seq p q).Leaves (n + 1) cs none := by
  refine of_succ fun fuel quiet offset m enough => ?_
  obtain ⟨m', failed⟩ := first.failed quiet offset m enough
  rw [trace, failed]
  rfl

theorem either (first : p.Leaves n cs (some rest)) : (Pattern.either p q).Leaves (n + 1) cs (some rest) := by
  refine of_succ fun fuel quiet offset m enough => ?_
  obtain ⟨offset', m', found⟩ := first.matched quiet offset m enough
  rw [trace, found]
  rfl

theorem either_none (first : p.Leaves n cs none) (second : q.Leaves n' cs left) :
    (Pattern.either p q).Leaves (max n n' + 1) cs left := by
  refine of_succ fun fuel quiet offset m enough => ?_
  obtain ⟨m', failed⟩ := first.failed quiet offset m ((Nat.le_max_left n n').trans enough)
  rw [trace, failed]
  exact second _ _ _ _ ((Nat.le_max_right n n').trans enough)

theorem optional (inner : p.Leaves n cs (some rest)) : (Pattern.optional p).Leaves (n + 1) cs (some rest) := by
  refine of_succ fun fuel quiet offset m enough => ?_
  obtain ⟨offset', m', found⟩ := inner.matched quiet offset m enough
  rw [trace, found]
  rfl

theorem optional_none (inner : p.Leaves n cs none) : (Pattern.optional p).Leaves (n + 1) cs (some cs) := by
  refine of_succ fun fuel quiet offset m enough => ?_
  obtain ⟨m', failed⟩ := inner.failed quiet offset m enough
  rw [trace, failed]
  rfl

theorem many (round : p.Leaves n cs (some mid)) (others : (Pattern.many p).Leaves n' mid left) :
    (Pattern.many p).Leaves (max n n' + 1) cs left := by
  refine of_succ fun fuel quiet offset m enough => ?_
  obtain ⟨offset', m', found⟩ := round.matched quiet offset m ((Nat.le_max_left n n').trans enough)
  rw [trace, found]
  exact others _ _ _ _ ((Nat.le_max_right n n').trans enough)

theorem many_none (round : p.Leaves n cs none) : (Pattern.many p).Leaves (n + 1) cs (some cs) := by
  refine of_succ fun fuel quiet offset m enough => ?_
  obtain ⟨m', failed⟩ := round.failed quiet offset m enough
  rw [trace, failed]
  rfl

theorem absent (inner : p.Leaves n cs (some rest)) : (Pattern.absent p).Leaves (n + 1) cs none := by
  refine of_succ fun fuel quiet offset m enough => ?_
  obtain ⟨offset', m', found⟩ := inner.matched true offset m enough
  rw [trace, found]
  rfl

theorem absent_none (inner : p.Leaves n cs none) : (Pattern.absent p).Leaves (n + 1) cs (some cs) := by
  refine of_succ fun fuel quiet offset m enough => ?_
  obtain ⟨m', failed⟩ := inner.failed true offset m enough
  rw [trace, failed]
  rfl

/-- Behind a part of a row the blanks are left out, and the row goes on. -/
theorem spaced {ps : List Pattern} (first : p.Leaves n cs (some mid))
    (others : (Pattern.spaced (q :: ps)).Leaves n' (unblanked mid) left) :
    (Pattern.spaced (p :: q :: ps)).Leaves (max n n' + 3) cs left :=
  (seq first (seq (blanks mid) others)).mono (by omega)

theorem spaced_none {ps : List Pattern} (first : p.Leaves n cs none) :
    (Pattern.spaced (p :: q :: ps)).Leaves (n + 1) cs none :=
  seq_none first

/-- A further round starts behind the blanks. -/
theorem further (round : p.Leaves n (unblanked cs) (some mid))
    (others : (Pattern.many (.seq .blanks p)).Leaves n' mid left) :
    (Pattern.many (.seq .blanks p)).Leaves (max (n + 2) n' + 1) cs left :=
  (many (seq (blanks cs) round) others).mono (by omega)

/-- Where no further round is possible even the blanks stay. -/
theorem further_none (round : p.Leaves n (unblanked cs) none) :
    (Pattern.many (.seq .blanks p)).Leaves (n + 3) cs (some cs) :=
  (many_none (seq (blanks cs) round)).mono (by omega)

theorem rounds (first : p.Leaves n cs (some mid))
    (others : (Pattern.many (.seq .blanks p)).Leaves n' mid (some rest)) :
    (Pattern.rounds p).Leaves (max n n' + 2) cs (some rest) :=
  optional (seq first others)

theorem rounds_none (first : p.Leaves n cs none) : (Pattern.rounds p).Leaves (n + 2) cs (some cs) :=
  optional_none (seq_none first)

end Pattern.Leaves

end LazyExpr
