import LazyExpr.Proofs.Lowering.Widening
import LazyExpr.Tree.Printable
import Mathlib.Data.List.Nodup

namespace LazyExpr

namespace Code

mutual

/-- The codes whose values are wrapped, in the order in which the code would reach them. -/
def wrapped : Code → List Code
  | nullHandle | const _ | param _ | binding _ => []
  | box inner => inner :: wrapped inner
  | resolve inner | truthy inner => wrapped inner
  | await provider _ => wrapped provider
  | firstPresent left right => wrapped left ++ wrapped right
  | ternary condition yes no => wrapped condition ++ wrapped yes ++ wrapped no
  | binary _ left right => wrapped left ++ wrapped right
  | unary _ operand => wrapped operand
  | field base _ _ => wrapped base
  | index base key _ => wrapped base ++ wrapped key
  | list items => wrappedOfAll items
  | call _ args => wrappedOfAll args

def wrappedOfAll : List Code → List Code
  | [] => []
  | code :: rest => wrapped code ++ wrappedOfAll rest

end

theorem length_wrappedOfAll {items : List Code} (each : ∀ c ∈ items, c.wrapped.length = c.boxes) :
    (wrappedOfAll items).length = boxesOfAll items := by
  induction items with
  | nil => rfl
  | cons c rest ih =>
    rw [wrappedOfAll, boxesOfAll, List.length_append, each c List.mem_cons_self,
      ih fun c member => each c (List.mem_cons_of_mem _ member)]

theorem length_wrapped (c : Code) : c.wrapped.length = c.boxes := by
  induction c with
  | nullHandle | const | param | binding => rfl
  | box inner ih => rw [wrapped, boxes, List.length_cons, ih]
  | resolve inner ih | truthy inner ih | await inner point ih | unary op inner ih | field inner name safe ih =>
    rw [wrapped, boxes, ih]
  | firstPresent left right ihLeft ihRight | binary op left right ihLeft ihRight
  | index left right safe ihLeft ihRight =>
    rw [wrapped, boxes, List.length_append, ihLeft, ihRight]
  | ternary condition yes no ihCondition ihYes ihNo =>
    rw [wrapped, boxes, List.length_append, List.length_append, ihCondition, ihYes, ihNo]
  | list items ih | call name items ih => rw [wrapped, boxes, length_wrappedOfAll ih]

theorem wrapped_eq_nil {c : Code} (none : c.boxes = 0) : c.wrapped = [] :=
  List.eq_nil_of_length_eq_zero (c.length_wrapped.trans none)

end Code

/-- The sides of a choice: the operands of `??` and the branches of `?:`, but not its condition. -/
inductive Expr.HasSide : Expr → Side → Expr → Prop
  | left {span left right} : HasSide (.coalesce span left right) .left left
  | right {span left right} : HasSide (.coalesce span left right) .right right
  | yes {span condition yes no} : HasSide (.choose span condition yes no) .left yes
  | no {span condition yes no} : HasSide (.choose span condition yes no) .right no

namespace Setting

/-- Whether the expression can be streamed on its own: lowered where suspension is permitted and wrapping is not. -/
def streams (setting : Setting) (e : Expr) : Bool := (setting.lower? .preserveStreaming e 0).1.isSome

/-- Whether the expression can only be handed on by wrapping its value, a bare scalar. -/
def needsBox (setting : Setting) (e : Expr) : Bool := !setting.streams e && (setting.eager e 0).1.storage.isRaw

/-- The ways down from the root through sides of choices only, all of which can be streamed on their own, with the
operand at the end of each. -/
inductive Exposed (setting : Setting) : Expr → List Side → Expr → Prop
  | side {e s x} : setting.streams e → e.HasSide s x → Exposed setting e [s] x
  | under {e s x way y} : setting.streams e → e.HasSide s x → Exposed setting x way y →
      Exposed setting e (s :: way) y

/-- A side of a choice, before what is exposed below it. -/
def onSide (s : Side) (e : Expr) (below : List (List Side × Expr)) : List (List Side × Expr) :=
  (([], e) :: below).map fun o => (s :: o.1, o.2)

/-- The exposed operands with the ways to them, from left to right. -/
def exposed (setting : Setting) : Expr → List (List Side × Expr)
  | .coalesce span left right =>
    if setting.streams (.coalesce span left right) then
      onSide .left left (setting.exposed left) ++ onSide .right right (setting.exposed right)
    else []
  | .choose span condition yes no =>
    if setting.streams (.choose span condition yes no) then
      onSide .left yes (setting.exposed yes) ++ onSide .right no (setting.exposed no)
    else []
  | _ => []

variable {setting : Setting}

theorem streams_next (e : Expr) (next : Nat) :
    (setting.lower? .preserveStreaming e next).1.isSome = setting.streams e := lower_isSome_next e next 0

theorem streams_of_some {e : Expr} {next : Nat} {c : TypedCode}
    (lowered : (setting.lower? .preserveStreaming e next).1 = some c) : setting.streams e := by
  rw [← streams_next e next, lowered, Option.isSome_some]

theorem needsBox_iff {e : Expr} : setting.needsBox e ↔
    (∀ next, (setting.lower? .preserveStreaming e next).1 = none) ∧
      ∀ next, (setting.eager e next).1.storage.isRaw := by
  have storage : ∀ next, (setting.eager e next).1.storage = (setting.eager e 0).1.storage := fun next =>
    (setting.eager_code e next).storage_unique (setting.eager_code e 0)
  simp only [needsBox, Bool.and_eq_true, Bool.not_eq_true', ← Option.not_isSome_iff_eq_none, streams_next, storage,
    Bool.not_eq_true, forall_const]

theorem mem_onSide {s : Side} {e x : Expr} {below : List (List Side × Expr)} {way : List Side} :
    (way, x) ∈ onSide s e below ↔ (way = [s] ∧ x = e) ∨ ∃ rest, way = s :: rest ∧ (rest, x) ∈ below := by
  simp only [onSide, List.map_cons, List.mem_cons, List.mem_map, Prod.mk.injEq, Prod.exists]
  refine or_congr Iff.rfl ⟨?_, ?_⟩
  · rintro ⟨rest, y, member, atWay, same⟩
    exact ⟨rest, atWay.symm, same ▸ member⟩
  · rintro ⟨rest, atWay, member⟩
    exact ⟨rest, x, member, atWay.symm, rfl⟩

theorem Exposed.ofSide {e x y : Expr} {s : Side} {below : List (List Side × Expr)} {way : List Side}
    (streams : setting.streams e) (side : e.HasSide s x) (all : ∀ way, (way, y) ∈ below → setting.Exposed x way y)
    (member : (way, y) ∈ onSide s x below) : setting.Exposed e way y := by
  rcases mem_onSide.mp member with ⟨atWay, same⟩ | ⟨rest, atWay, deeper⟩
  · subst atWay same
    exact .side streams side
  · subst atWay
    exact .under streams side (all rest deeper)

theorem mem_exposed {e x : Expr} {way : List Side} : (way, x) ∈ setting.exposed e ↔ setting.Exposed e way x := by
  constructor
  · intro member
    induction e generalizing way with
    | coalesce span left right ihFirst ihSecond | choose span condition left right _ ihFirst ihSecond =>
      rw [exposed] at member
      split at member
      · rename_i streams
        rcases List.mem_append.mp member with first | second
        · exact .ofSide streams (by constructor) (fun _ => ihFirst) first
        · exact .ofSide streams (by constructor) (fun _ => ihSecond) second
      · cases member
    | _ => cases member
  · intro reached
    induction reached with
    | side streams side =>
      cases side <;> rw [exposed, if_pos streams, List.mem_append, mem_onSide, mem_onSide]
      all_goals first | exact .inl (.inl ⟨rfl, rfl⟩) | exact .inr (.inl ⟨rfl, rfl⟩)
    | under streams side _ ih =>
      cases side <;> rw [exposed, if_pos streams, List.mem_append, mem_onSide, mem_onSide]
      all_goals first | exact .inl (.inr ⟨_, rfl, ih⟩) | exact .inr (.inr ⟨_, rfl, ih⟩)

theorem Exposed.way_ne_nil {e x : Expr} {way : List Side} (exposed : setting.Exposed e way x) : way ≠ [] := by
  cases exposed <;> exact List.cons_ne_nil _ _

theorem onSide_ways (s : Side) (e : Expr) (below : List (List Side × Expr)) :
    (onSide s e below).map Prod.fst = ([] :: below.map Prod.fst).map (s :: ·) := by
  simp [onSide, Function.comp_def]

/-- No two operands are reached by the same way. -/
theorem exposed_nodup (e : Expr) : ((setting.exposed e).map Prod.fst).Nodup := by
  have side : ∀ s e, ((setting.exposed e).map Prod.fst).Nodup →
      ((onSide s e (setting.exposed e)).map Prod.fst).Nodup := by
    intro s e nodup
    rw [onSide_ways]
    refine List.Nodup.map List.cons_injective (List.nodup_cons.mpr ⟨fun member => ?_, nodup⟩)
    obtain ⟨⟨way, x⟩, exposed, empty⟩ := List.mem_map.mp member
    exact (mem_exposed.mp exposed).way_ne_nil empty
  have apart : ∀ a b below below', ((onSide .left a below).map Prod.fst).Disjoint
      ((onSide .right b below').map Prod.fst) := by
    intro a b below below' way inFirst inSecond
    rw [onSide_ways] at inFirst inSecond
    obtain ⟨_, _, atFirst⟩ := List.mem_map.mp inFirst
    obtain ⟨_, _, atSecond⟩ := List.mem_map.mp inSecond
    cases atFirst.trans atSecond.symm
  induction e with
  | coalesce span left right ihFirst ihSecond | choose span condition left right _ ihFirst ihSecond =>
    rw [exposed]
    split
    · rw [List.map_append]
      exact List.Nodup.append (side _ _ ihFirst) (side _ _ ihSecond) (apart _ _ _ _)
    · exact .nil
  | _ => exact .nil

theorem exposed_of_declined {e : Expr} (declined : setting.streams e = false) : setting.exposed e = [] := by
  cases e with
  | coalesce | choose => rw [exposed, if_neg (Bool.eq_false_iff.mp declined)]
  | _ => rfl

/-- The code is the eager code of the operand. -/
def Wraps (setting : Setting) (operand : List Side × Expr) (inner : Code) : Prop :=
  ∃ next, inner = (setting.eager operand.2 next).1.code

/-- Of these operands those that need a box, one for each of the codes, which wrap their values. -/
def BoxesOf (setting : Setting) (operands : List (List Side × Expr)) (inners : List Code) : Prop :=
  List.Forall₂ setting.Wraps (operands.filter fun o => setting.needsBox o.2) inners

theorem BoxesOf.cons {operand : List Side × Expr} {below : List (List Side × Expr)} {inner : Code}
    {inners : List Code}
    (box : setting.needsBox operand.2) (wraps : setting.Wraps operand inner)
    (boxes : setting.BoxesOf below inners) :
    setting.BoxesOf (operand :: below) (inner :: inners) := by
  rw [BoxesOf, List.filter_cons, if_pos box]
  exact .cons wraps boxes

theorem BoxesOf.skip {operand : List Side × Expr} {below : List (List Side × Expr)} {inners : List Code}
    (noBox : setting.needsBox operand.2 = false) (boxes : setting.BoxesOf below inners) :
    setting.BoxesOf (operand :: below) inners := by
  rw [BoxesOf, List.filter_cons, noBox]
  exact boxes

theorem BoxesOf.onSide {e : Expr} {below : List (List Side × Expr)} {inners : List Code}
    (boxes : setting.BoxesOf (([], e) :: below) inners) (s : Side) :
    setting.BoxesOf (Setting.onSide s e below) inners := by
  rw [BoxesOf, Setting.onSide, List.filter_map, List.forall₂_map_left_iff]
  exact boxes

theorem BoxesOf.append {operands operands' : List (List Side × Expr)} {inners inners' : List Code}
    (first : setting.BoxesOf operands inners) (second : setting.BoxesOf operands' inners') :
    setting.BoxesOf (operands ++ operands') (inners ++ inners') := by
  rw [BoxesOf, List.filter_append]
  exact List.rel_append first second

theorem EagerCode.wrapped_eq_nil {e : Expr} {c : TypedCode} (derived : setting.EagerCode e c) :
    c.code.wrapped = [] :=
  Code.wrapped_eq_nil derived.boxes_eq_zero

theorem waitFor_wrapped (c : TypedCode) (next : Nat) : (waitFor c next).1.code.wrapped = c.code.wrapped := by
  unfold waitFor
  split <;> rfl

theorem intoBranch_wrapped (c : TypedCode) : c.intoBranch.code.wrapped = c.code.wrapped := by
  unfold TypedCode.intoBranch
  split <;> rfl

theorem ternary_wrapped {condition : TypedCode} (branch : condition.code.wrapped = []) (yes no : TypedCode) :
    (TypedCode.ternary condition yes no).code.wrapped = yes.code.wrapped ++ no.code.wrapped := by
  rw [TypedCode.ternary, Code.wrapped, intoBranch_wrapped, branch, List.nil_append]

theorem awaited_wrapped (e : Expr) (answer : Option TypedCode) (next : Nat) :
    (setting.awaited e answer next).1.code.wrapped = (setting.orEager e answer next).1.code.wrapped := by
  cases answer with
  | some c =>
    rw [awaited]
    split
    · exact waitFor_wrapped c next
    · rfl
  | none => rfl

/-- An operand that is declined is computed, and its value is wrapped if it is a bare scalar. Nothing below it is
exposed and nothing in its code is wrapped. -/
theorem declined_boxes {e : Expr} (declined : setting.streams e = false) (next : Nat) :
    setting.BoxesOf (([], e) :: setting.exposed e) (setting.eager e next).1.boxed.code.wrapped := by
  have derived := setting.eager_code e next
  have storage := derived.storage_unique (setting.eager_code e 0)
  rw [exposed_of_declined declined, TypedCode.boxed]
  by_cases raw : (setting.eager e next).1.storage.isRaw
  · rw [if_pos raw, Code.wrapped, derived.wrapped_eq_nil]
    exact .cons (by rw [needsBox, declined, ← storage, raw]; rfl) ⟨next, rfl⟩ .nil
  · rw [if_neg raw, derived.wrapped_eq_nil]
    exact .skip (by rw [needsBox, ← storage, Bool.eq_false_iff.mpr raw, Bool.and_false]) .nil

/-- The boxes in the code of an operand: its own if it has to be computed, or else those of its own lowering. -/
theorem orEager_boxesOf {e : Expr} {next after : Nat} {answer : Option TypedCode}
    (lowered : ∀ {next c}, (setting.lower? .preserveStreaming e next).1 = some c →
      setting.BoxesOf (setting.exposed e) c.code.wrapped)
    (found : setting.lower? .preserveStreaming e next = (answer, after)) (next' : Nat) :
    setting.BoxesOf (([], e) :: setting.exposed e) (setting.orEager e answer next').1.code.wrapped := by
  have streams := @streams_next setting e next
  rw [found] at streams
  cases answer with
  | some c => exact (lowered (congrArg Prod.fst found)).skip (by rw [needsBox, ← streams]; rfl)
  | none => exact declined_boxes streams.symm next'

/-- The code for `??`, made from what was found for its operands. -/
theorem streamed_coalesce {span : Span} {left right : Expr} {next : Nat} {c : TypedCode}
    (lowered : (setting.lower? .preserveStreaming (.coalesce span left right) next).1 = some c) :
    ∃ a b middle after free, setting.lower? .preserveStreaming left next = (a, middle) ∧
      setting.lower? .preserveStreaming right middle = (b, after) ∧
      c = (setting.awaited left a free).1.firstPresent (setting.orEager right b after).1 := by
  obtain ⟨a, b, middle, after, first, second, whole⟩ :=
    @lower_coalesce setting .preserveStreaming span left right rfl next
  rw [whole] at lowered
  split at lowered
  · cases lowered
  · exact ⟨a, b, middle, after, _, first, second, (Option.some.inj lowered).symm⟩

/-- The code for `?:`, made from what was found for its branches. -/
theorem streamed_choose {span : Span} {condition yes no : Expr} {next : Nat} {c : TypedCode}
    (lowered : (setting.lower? .preserveStreaming (.choose span condition yes no) next).1 = some c) :
    ∃ a b middle after free free', setting.lower? .preserveStreaming yes next = (a, middle) ∧
      setting.lower? .preserveStreaming no middle = (b, after) ∧
      c = .ternary (setting.eager condition after).1 (setting.orEager yes a free).1
        (setting.orEager no b free').1 := by
  obtain ⟨a, b, middle, after, first, second, whole⟩ :=
    @lower_choose setting .preserveStreaming span condition yes no rfl next
  rw [whole] at lowered
  split at lowered
  · cases lowered
  · exact ⟨a, b, middle, after, _, _, first, second, (Option.some.inj lowered).symm⟩

/-- Of the codes that are wrapped each comes from a side of the choice, and so from an exposed operand. -/
theorem lower_boxesOf {e : Expr} {next : Nat} {c : TypedCode}
    (lowered : (setting.lower? .preserveStreaming e next).1 = some c) :
    setting.BoxesOf (setting.exposed e) c.code.wrapped := by
  induction e generalizing next c with
  | null =>
    cases lowered
    exact .nil
  | ref span scope name =>
    have bare := Code.wrapped_eq_nil (provider_boxes setting.layout scope name)
    rw [lower?] at lowered
    split at lowered
    · cases lowered
    · cases lowered
      rw [bare]
      exact .nil
  | coalesce span left right ihLeft ihRight =>
    rw [exposed, if_pos (streams_of_some lowered)]
    obtain ⟨a, b, middle, after, free, first, second, same⟩ := streamed_coalesce lowered
    have atLeft := orEager_boxesOf ihLeft first free
    have atRight := orEager_boxesOf ihRight second after
    rw [← awaited_wrapped] at atLeft
    rw [same]
    exact (atLeft.onSide .left).append (atRight.onSide .right)
  | choose span condition yes no _ ihYes ihNo =>
    rw [exposed, if_pos (streams_of_some lowered)]
    obtain ⟨a, b, middle, after, free, free', first, second, same⟩ := streamed_choose lowered
    have branch := (setting.eager_code condition after).wrapped_eq_nil
    rw [same, ternary_wrapped branch]
    exact ((orEager_boxesOf ihYes first free).onSide .left).append
      ((orEager_boxesOf ihNo second free').onSide .right)
  | _ => cases lowered

theorem lower_ne_box {e : Expr} {next : Nat} {c : TypedCode} (inner : Code)
    (lowered : (setting.lower? .preserveStreaming e next).1 = some c) : c.code ≠ .box inner := by
  intro box
  cases e with
  | null =>
    cases lowered
    cases box
  | ref span scope name =>
    rw [lower?] at lowered
    split at lowered
    · cases lowered
    · cases lowered
      cases scope <;> cases box
  | coalesce span left right =>
    obtain ⟨_, _, _, _, _, _, _, same⟩ := streamed_coalesce lowered
    rw [same] at box
    cases box
  | choose span condition yes no =>
    obtain ⟨_, _, _, _, _, _, _, _, same⟩ := streamed_choose lowered
    rw [same] at box
    cases box
  | _ => cases lowered

/-- Streaming wraps only what it must. In the code of a handle the boxes stand, one for one and in the same order,
for the exposed operands that cannot be streamed themselves and whose values are bare scalars. Each box holds the
eager code of its operand, no box stands within another one, and the handle itself is never a box. -/
theorem lower_wraps {e : Expr} {next : Nat} {c : TypedCode}
    (lowered : (setting.lower? .preserveStreaming e next).1 = some c) :
    (∀ inner, c.code ≠ .box inner) ∧
    ∃ operands : List (List Side × Expr),
      List.Forall₂ (fun operand inner => (∃ k, inner = (setting.eager operand.2 k).1.code) ∧ inner.boxes = 0)
        operands c.code.wrapped ∧
      (operands.map Prod.fst).Nodup ∧
      ∀ way x, (way, x) ∈ operands ↔ setting.Exposed e way x ∧
        (∀ k, (setting.lower? .preserveStreaming x k).1 = none) ∧ ∀ k, (setting.eager x k).1.storage.isRaw := by
  refine ⟨fun inner => lower_ne_box inner lowered, _, (lower_boxesOf lowered).imp ?_, ?_, fun way x => ?_⟩
  · rintro operand inner ⟨k, same⟩
    refine ⟨⟨k, same⟩, ?_⟩
    rw [same]
    exact (setting.eager_code operand.2 k).boxes_eq_zero
  · exact (exposed_nodup e).sublist (List.filter_sublist.map _)
  · rw [List.mem_filter, mem_exposed, needsBox_iff]

/-- A bare scalar behind a parameter is wrapped, and so is a whole conditional of two of them. -/
theorem lower_wraps_scalars :
    let setting := static [] []
    let choice : Expr := .choose .synthetic (.ref .synthetic .param "y") (.literal .synthetic (.int 1))
      (.literal .synthetic (.int 2))
    let present : Expr := .coalesce .synthetic (.ref .synthetic .param "x") (.literal .synthetic (.int 5))
    let e : Expr := .coalesce .synthetic present choice
    ∃ c, (setting.lower? .preserveStreaming e 0).1 = some c ∧ (∀ inner, c.code ≠ .box inner) ∧
      c.code.wrapped = [.const (.int 5), (setting.eager choice 1).1.code] ∧
      ∃ operands : List (List Side × Expr),
        List.Forall₂ (fun operand inner => (∃ k, inner = (setting.eager operand.2 k).1.code) ∧ inner.boxes = 0)
          operands c.code.wrapped ∧
        (operands.map Prod.fst).Nodup ∧
        ∀ way x, (way, x) ∈ operands ↔ setting.Exposed e way x ∧
          (∀ k, (setting.lower? .preserveStreaming x k).1 = none) ∧ ∀ k, (setting.eager x k).1.storage.isRaw := by
  intro setting choice present e
  obtain ⟨root, boxes⟩ := @lower_wraps setting e 0 _ rfl
  exact ⟨_, rfl, root, rfl, boxes⟩

end Setting

end LazyExpr
