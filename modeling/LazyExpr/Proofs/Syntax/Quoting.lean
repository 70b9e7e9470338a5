import Mathlib
import LazyExpr.Proofs.Syntax.Lexing
import LazyExpr.Proofs.Syntax.Tokens
import LazyExpr.Syntax.Mismatch

namespace LazyExpr

namespace Mismatch

open Quoted

variable {fuel : Nat} {quiet : Bool} {m after : Mismatch}

theorem trace_rule_fst (r : Rule) (c : Cursor) :
    (trace (fuel + 1) quiet (.rule r) c m).1 = (trace fuel (quiet || r.isAtomic) r.body c m).1 := by
  rw [trace]
  rcases trace fuel (quiet || r.isAtomic) r.body c m with ⟨_ | _, _⟩ <;> rfl

theorem trace_rule_some {r : Rule} {c next : Cursor}
    (matched : trace fuel (quiet || r.isAtomic) r.body c m = (some next, after)) :
    trace (fuel + 1) quiet (.rule r) c m = (some next, after) := by
  rw [trace, matched]

theorem trace_seq_some {first : Pattern} {c next : Cursor}
    (matched : trace fuel quiet first c m = (some next, after)) (second : Pattern) :
    trace (fuel + 1) quiet (.seq first second) c m = trace fuel quiet second next after := by
  rw [trace, matched]

theorem trace_seq_none {first : Pattern} {c : Cursor} (failed : trace fuel quiet first c m = (none, after))
    (second : Pattern) : trace (fuel + 1) quiet (.seq first second) c m = (none, after) := by
  rw [trace, failed]

variable {inner behind : List Char} (quiet) (m) (here : Nat)

/-- One round of the rule for the inside of a literal takes a backslash with the character behind it. -/
theorem trace_pair (c : Char) (rest : List Char) :
    trace (fuel + 5) quiet Rule.stringInner.body ⟨here, '\\' :: c :: rest⟩ m =
      trace (fuel + 4) quiet Rule.stringInner.body ⟨here + '\\'.utf8Size + c.utf8Size, rest⟩ m :=
  rfl

theorem trace_plain {c : Char} (notQuote : c ≠ '"') (notBackslash : c ≠ '\\') (rest : List Char) :
    trace (fuel + 5) quiet Rule.stringInner.body ⟨here, c :: rest⟩ m =
      trace (fuel + 4) quiet Rule.stringInner.body ⟨here + c.utf8Size, rest⟩ m := by
  have escape : Cursor.after? ⟨here, c :: rest⟩ "\\".toList = none := if_neg notBackslash.symm
  have accepted : (c ≠ '"' && c ≠ '\\') = true := by simp [notQuote, notBackslash]
  rw [Rule.body, trace]
  simp only [trace, Pattern.joined, escape, accepted, if_true]

theorem trace_stop (stops : Stops behind) :
    trace (fuel + 4) quiet Rule.stringInner.body ⟨here, behind⟩ m = (some ⟨here, behind⟩, m) := by
  cases stops <;> rfl

theorem trace_inside (inside : Inside inner) (stops : Stops behind) (enough : inner.length ≤ fuel) :
    trace (fuel + 4) quiet Rule.stringInner.body ⟨here, inner ++ behind⟩ m =
      (some ⟨here + byteSize inner, behind⟩, m) := by
  induction inside generalizing fuel here with
  | nil => exact trace_stop quiet m here stops
  | pair c _ ih =>
    obtain ⟨fuel, rfl⟩ := Nat.exists_eq_add_of_lt (Nat.lt_of_succ_lt enough)
    rw [List.cons_append, List.cons_append, trace_pair, ih, byteSize, byteSize]
    · simp only [Nat.add_assoc]
    · simp only [List.length_cons] at enough
      omega
  | plain notQuote notBackslash _ ih =>
    obtain ⟨fuel, rfl⟩ := Nat.exists_eq_add_of_lt enough
    rw [List.cons_append, trace_plain _ _ _ notQuote notBackslash, ih, byteSize, Nat.add_assoc]
    omega

/-- The grammar's rule for literals matches exactly where decoding finds one, and takes the same
characters. -/
theorem trace_quotedString (cs : List Char) (enough : cs.length ≤ fuel) :
    (trace (fuel + 8) quiet (.rule .quotedString) ⟨here, cs⟩ m).1 =
      (decode cs).map fun found => ⟨here + byteSize found.2.1, found.2.2⟩ := by
  simp only [trace_rule_fst, Rule.body, Pattern.joined]
  generalize (quiet || Rule.quotedString.isAtomic) = quiet
  rcases cs with _ | ⟨c, text⟩
  · rfl
  by_cases quote : c = '"'
  · subst quote
    obtain ⟨inner, behind, inside, stops, rfl⟩ := exists_inside text
    have opened : trace (fuel + 6) quiet (.text "\"") ⟨here, '"' :: (inner ++ behind)⟩ m =
        (some ⟨here + '"'.utf8Size, inner ++ behind⟩, m) := rfl
    have short : inner.length ≤ fuel := by
      simp only [List.length_cons, List.length_append] at enough
      omega
    have passed := trace_inside (quiet || Rule.stringInner.isAtomic) m (here + '"'.utf8Size) inside stops short
    rw [trace_seq_some opened, trace_seq_some (trace_rule_some passed), decode, inside.decodeBody]
    cases stops with
    | quote rest =>
      simp only [decodeBody, Option.map_some, byteSize, byteSize_append, ← Nat.add_assoc]
      rfl
    | backslash => rfl
    | nothing => rfl
  · have unopened : trace (fuel + 6) quiet (.text "\"") ⟨here, c :: text⟩ m = (none, m) :=
      congrArg (·, m) (if_neg (Ne.symm quote))
    rw [decode_of_ne_quote quote, trace_seq_none unopened]
    rfl

end Mismatch

namespace Quoted

open Mismatch

/-- Unescaping undoes quoting. Whatever follows the literal of a string, the grammar's rule for literals
takes exactly that literal, what the rule for its inside takes stands for the string, and the literal is
read as that string. Each rule has as much fuel as the text has characters, and some to spare. -/
theorem quoted_read_back (s : String) (behind : List Char) (spare here : Nat) (quiet : Bool) (m : Mismatch) :
    let literal := (quoted s).toList
    let fuel := (literal ++ behind).length + 8 + spare
    (trace fuel quiet (.rule .quotedString) ⟨here, literal ++ behind⟩ m).1 =
        some ⟨here + byteSize literal, behind⟩ ∧
      (∃ inner, literal = '"' :: inner ++ ['"'] ∧
        (trace fuel quiet (.rule .stringInner) ⟨here + 1, inner ++ '"' :: behind⟩ m).1 =
          some ⟨here + 1 + byteSize inner, '"' :: behind⟩ ∧
        String.ofList (unescaped inner) = s) ∧
      Lexeme.split? (literal ++ behind) = some (.quoted s, literal, behind) := by
  intro literal fuel
  have written : literal = encode s.toList := String.toList_ofList
  refine ⟨?_, ?_, Lexeme.split?_quoted s behind⟩
  · have decoded : decode (literal ++ behind) = some (s.toList, literal, behind) := by
      rw [written]
      exact decode_encode s.toList behind
    have enough : fuel = (literal ++ behind).length + spare + 8 := Nat.add_right_comm _ 8 spare
    rw [enough, trace_quotedString quiet m here _ (Nat.le_add_right _ _), decoded, Option.map_some]
  · obtain ⟨inside, same⟩ := inside_flatMap_escape s.toList
    have whole : literal = '"' :: s.toList.flatMap escape ++ ['"'] := by rw [written, encode]
    have enough : fuel = ((literal ++ behind).length + spare + 3) + 4 + 1 := by
      rw [Nat.add_assoc, Nat.add_assoc]
      exact Nat.add_right_comm _ 8 spare
    refine ⟨_, whole, ?_, by rw [same, String.ofList_toList]⟩
    rw [enough, trace_rule_fst, trace_inside _ m _ inside (.quote behind)]
    simp only [whole, List.length_append, List.length_cons]
    omega

end Quoted

end LazyExpr
