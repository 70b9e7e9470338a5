import LazyExpr.Machine.Program
import LazyExpr.Proofs.Lowering.Derivation
import Mathlib.Data.List.Nodup

namespace LazyExpr

/-- Started with some points at hand, the computation ends with these and with the numbers that it has taken, each
of them once. -/
def Labels {α : Type} (held : List Nat) (x : StateM Nat α) (points : α → List Nat) : Prop :=
  ∀ next, ∃ count, (x next).2 = next + count ∧ (points (x next).1).Perm (held ++ List.range' next count)

namespace Labels

variable {α β : Type} {held : List Nat} {x : StateM Nat α} {points : α → List Nat}

theorem pure {a : α} (same : (points a).Perm held) : Labels held (pure a) points := by
  refine fun next => ⟨0, rfl, ?_⟩
  rw [List.range'_zero, List.append_nil]
  exact same

theorem bind {k : α → StateM Nat β} {points' : β → List Nat} (first : Labels held x points)
    (rest : ∀ a, Labels (points a) (k a) points') : Labels held (x >>= k) points' := by
  intro next
  obtain ⟨count, atMiddle, labels⟩ := first next
  obtain ⟨count', atEnd, labels'⟩ := rest (x next).1 (x next).2
  refine ⟨count + count', ?_, ?_⟩
  · rw [← Nat.add_assoc, ← atMiddle]
    exact atEnd
  · have joined := labels.append_right (List.range' (x next).2 count')
    rw [atMiddle, List.append_assoc, List.range'_append_1, ← atMiddle] at joined
    exact labels'.trans joined

/-- Points that have nothing to do with the computation stay at hand. -/
theorem beside (labels : Labels held x points) (others : List Nat) :
    Labels (others ++ held) x fun a => others ++ points a := by
  intro next
  obtain ⟨count, atEnd, all⟩ := labels next
  refine ⟨count, atEnd, ?_⟩
  rw [List.append_assoc]
  exact all.append_left others

/-- A computation that starts with no points at hand can follow one that has left some. -/
theorem after (labels : Labels [] x points) (others : List Nat) : Labels others x fun a => others ++ points a := by
  have beside := labels.beside others
  rwa [List.append_nil] at beside

theorem perm {held' : List Nat} {points' : α → List Nat} (labels : Labels held x points) (before : held.Perm held')
    (after : ∀ a, (points' a).Perm (points a)) : Labels held' x points' := by
  intro next
  obtain ⟨count, atEnd, all⟩ := labels next
  exact ⟨count, atEnd, (after _).trans (all.trans (before.append_right _))⟩

end Labels

namespace TypedCode

@[simp]
theorem points_resolved (c : TypedCode) : c.resolved.code.points = c.code.points := by
  unfold resolved
  split <;> rfl

@[simp]
theorem points_boxed (c : TypedCode) : c.boxed.code.points = c.code.points := by
  unfold boxed
  split <;> rfl

@[simp]
theorem points_intoBranch (c : TypedCode) : c.intoBranch.code.points = c.code.points := by
  unfold intoBranch
  split <;> rfl

end TypedCode

theorem waitFor_labels (provider : TypedCode) :
    Labels provider.code.points (waitFor provider) fun c => c.code.points := by
  intro next
  unfold waitFor
  by_cases present : provider.storage.isPresent
  · rw [if_pos present]
    exact ⟨0, rfl, by rw [List.range'_zero, List.append_nil]⟩
  · rw [if_neg present]
    exact ⟨1, rfl, .refl _⟩

namespace Setting

variable {setting : Setting} {mode : Mode}

theorem provider_points (layout : Layout) (scope : Scope) (name : String) :
    (layout.provider scope name).code.points = [] := by
  cases scope <;> rfl

theorem eagerAll_labels {items : List Expr}
    (each : ∀ e ∈ items, Labels [] (setting.eager e) fun c => c.code.points) :
    Labels [] (setting.eagerAllWith waitFor items) Code.pointsOfAll := by
  induction items with
  | nil => exact .pure (.refl _)
  | cons e rest ih =>
    rw [eagerAllWith]
    refine (each e List.mem_cons_self).bind fun first => ?_
    have others := (ih fun e member => each e (List.mem_cons_of_mem _ member)).after first.code.points
    exact others.bind fun codes => .pure (.refl _)

/-- Eager code uses each number once that it takes. -/
theorem eager_labels (e : Expr) : Labels [] (setting.eager e) fun c => c.code.points := by
  unfold eager
  induction e with
  | null | literal => exact .pure (.refl _)
  | list span items ih =>
    rw [eagerWith]
    exact (eagerAll_labels ih).bind fun codes => .pure (.refl _)
  | ref span scope name =>
    rw [eagerWith, readWith]
    have bare := provider_points setting.layout scope name
    split
    · have waits := waitFor_labels (setting.layout.provider scope name)
      rw [bare] at waits
      exact waits.bind fun handle => .pure (by rw [TypedCode.points_resolved])
    · exact .pure (by rw [TypedCode.points_resolved, bare])
  | field span base name safe ih | unary span op operand ih =>
    rw [eagerWith]
    exact ih.bind fun b => .pure (.refl _)
  | index span base key safe ihLeft ihRight | binary span op left right ihLeft ihRight =>
    rw [eagerWith]
    exact ihLeft.bind fun l => (ihRight.after _).bind fun r => .pure (.refl _)
  | coalesce span left right ihLeft ihRight =>
    rw [eagerWith]
    exact ihLeft.bind fun l => (ihRight.after _).bind fun r => .pure (by rw [TypedCode.points_resolved]; rfl)
  | choose span condition yes no ihCondition ihYes ihNo =>
    rw [eagerWith]
    refine ihCondition.bind fun c => (ihYes.after _).bind fun y => (ihNo.after _).bind fun n => .pure ?_
    rw [TypedCode.points_resolved, TypedCode.ternary, Code.points, TypedCode.points_intoBranch]
  | call span name args ih =>
    rw [eagerWith]
    exact (eagerAll_labels ih).bind fun codes => .pure (.refl _)

theorem eagerWithoutSuspension_points {e : Expr} {c : TypedCode}
    (found : setting.eagerWithoutSuspension? e = some c) :
    c.code.points = [] := by
  have same : setting.eager e 0 = (c, 0) := congrFun (eagerWith_eq_pure waitFor found) 0
  obtain ⟨count, atEnd, labels⟩ := setting.eager_labels e 0
  rw [same] at atEnd labels
  have none : count = 0 := by omega
  rw [none] at labels
  exact List.perm_nil.mp labels

/-- The points of an answer. There are none if it was declined. -/
def pointsOf : Option TypedCode → List Nat
  | some c => c.code.points
  | none => []

theorem lowerGeneric_labels (e : Expr) : Labels [] (setting.lowerGeneric? mode e) pointsOf := by
  intro next
  have generic : setting.Generic mode e next _ := lowerGeneric_generic e next
  generalize setting.lowerGeneric? mode e next = answer at generic ⊢
  cases generic with
  | ready _ found =>
    refine ⟨0, rfl, ?_⟩
    rw [pointsOf, TypedCode.points_boxed, eagerWithoutSuspension_points found]
    exact .refl _
  | waits _ _ _ =>
    obtain ⟨count, atEnd, labels⟩ := setting.eager_labels e next
    refine ⟨count, atEnd, ?_⟩
    rw [pointsOf, TypedCode.points_boxed]
    exact labels
  | declined _ => exact ⟨0, rfl, .refl _⟩

theorem orEager_labels (e : Expr) (answer : Option TypedCode) :
    Labels (pointsOf answer) (setting.orEager e answer) fun c => c.code.points := by
  cases answer with
  | some code => exact .pure (.refl _)
  | none => exact (setting.eager_labels e).bind fun code => .pure (by rw [TypedCode.points_boxed])

theorem awaited_labels (e : Expr) (answer : Option TypedCode) :
    Labels (pointsOf answer) (setting.awaited e answer) fun c => c.code.points := by
  cases answer with
  | some code =>
    rw [awaited]
    by_cases waits : setting.mayWait e
    · rw [if_pos waits]
      exact waitFor_labels code
    · rw [if_neg waits]
      exact .pure (.refl _)
  | none => exact orEager_labels e none

/-- Where neither of two answers gives code, no number has been taken for them. -/
theorem pointsOf_neither {a b : Option TypedCode} (neither : (a.isNone && b.isNone) = true) :
    pointsOf a ++ pointsOf b = [] := by
  obtain ⟨noneA, noneB⟩ := Bool.and_eq_true_iff.mp neither
  rw [Option.isNone_iff_eq_none.mp noneA, Option.isNone_iff_eq_none.mp noneB]
  rfl

/-- Two attempts in a row, and what is done if either of them gives code, or neither. -/
theorem both_labels {x y : StateM Nat (Option TypedCode)} {declined : StateM Nat (Option TypedCode)}
    {further : Option TypedCode → Option TypedCode → StateM Nat (Option TypedCode)} (first : Labels [] x pointsOf)
    (second : Labels [] y pointsOf) (neither : Labels [] declined pointsOf)
    (either : ∀ a b, Labels (pointsOf a ++ pointsOf b) (further a b) pointsOf) :
    Labels [] (do
      let a ← x
      let b ← y
      if a.isNone && b.isNone then declined else further a b) pointsOf := by
  refine first.bind fun a => ?_
  refine (second.after (pointsOf a)).bind fun b => ?_
  by_cases both : a.isNone && b.isNone
  · rw [if_pos both, pointsOf_neither both]
    exact neither
  · rw [if_neg both]
    exact either a b

/-- An answer uses each number once that was taken for it. Where it is declined none has been taken, whatever was
tried. -/
theorem lower_labels (e : Expr) : Labels [] (setting.lower? mode e) pointsOf := by
  induction e with
  | null => exact .pure (.refl _)
  | ref span scope name =>
    have bare := provider_points setting.layout scope name
    rw [lower?]
    generalize setting.layout.provider scope name = provider at bare
    by_cases raw : provider.storage.isRaw
    · rw [if_pos raw]
      by_cases boxing : mode.allowsBoxing
      · rw [if_pos boxing]
        exact .pure (by rw [pointsOf, TypedCode.points_boxed, bare])
      · rw [if_neg boxing]
        exact .pure (.refl _)
    · rw [if_neg raw]
      exact .pure (by rw [pointsOf, bare])
  | coalesce span left right ihLeft ihRight =>
    rw [lower?]
    by_cases suspension : mode.allowsSuspension
    · rw [if_pos suspension]
      refine both_labels ihLeft ihRight (lowerGeneric_labels _) fun a b => ?_
      refine ((orEager_labels right b).beside (pointsOf a)).bind fun r => ?_
      -- The right operand is finished first, but its points come last in the code.
      have labels := (@awaited_labels setting left a).beside r.code.points
      refine (labels.perm List.perm_append_comm fun l => ?_).bind fun l => .pure (.refl _)
      exact List.perm_append_comm
    · rw [if_neg suspension]
      exact lowerGeneric_labels _
  | choose span condition yes no ihCondition ihYes ihNo =>
    rw [lower?]
    by_cases suspension : mode.allowsSuspension
    · rw [if_pos suspension]
      refine both_labels ihYes ihNo (.pure (.refl _)) fun a b => ?_
      refine ((setting.eager_labels condition).after (pointsOf a ++ pointsOf b)).bind fun c => ?_
      -- What is at hand is turned around so that the branch that is finished next stands last.
      have turn :
          ∀ before middle after : List Nat, (middle ++ after ++ before).Perm (before ++ middle ++ after) := by
        intro before middle after
        rw [List.append_assoc before]
        exact List.perm_append_comm
      have labelsYes := (@orEager_labels setting yes a).beside (pointsOf b ++ c.code.points)
      refine (labelsYes.perm (turn _ _ _) fun y => .refl _).bind fun y => ?_
      have labelsNo := (@orEager_labels setting no b).beside (c.code.points ++ y.code.points)
      refine (labelsNo.perm (turn _ _ _) fun n => .refl _).bind fun n => .pure ?_
      rw [pointsOf, TypedCode.ternary, Code.points, TypedCode.points_intoBranch]
    · rw [if_neg suspension]
      exact lowerGeneric_labels _
  | _ => exact lowerGeneric_labels _

theorem compile_labels (e : Expr) : Labels [] (setting.compile e) fun c => c.code.points :=
  (setting.lower_labels e).bind fun answer => orEager_labels e answer

theorem lowerBinding_labels (e : Expr) : Labels [] (setting.lowerBinding e) fun c => c.code.points :=
  (setting.lower_labels e).bind fun answer => orEager_labels e answer

theorem lowerPrint_labels (e : Expr) : Labels [] (setting.lowerPrint e) fun plan => plan.code.code.points := by
  refine (setting.lower_labels e).bind fun answer => ?_
  cases answer with
  | some code => exact .pure (.refl _)
  | none => exact (setting.eager_labels e).bind fun code => .pure (.refl _)

end Setting

/-- Whatever is asked for, its answer uses each number once that was taken for it. -/
theorem Entry.lower_labels (setting : Setting) (e : Expr) (entry : Entry) :
    Labels [] (entry.lower setting e) Setting.pointsOf := by
  cases entry with
  | compile => exact (Setting.compile_labels e).bind fun c => .pure (.refl _)
  | streaming | avoiding => exact Setting.lower_labels e
  | inMode mode detacher =>
    rw [lower]
    cases mode.withDetacher detacher with
    | ok mode => exact Setting.lower_labels e
    | error refusal => exact .pure (.refl _)
  | print => exact (Setting.lowerPrint_labels e).bind fun c => .pure (.refl _)
  | binding => exact (Setting.lowerBinding_labels e).bind fun c => .pure (.refl _)
  | eager => exact (Setting.eager_labels e).bind fun c => .pure (.refl _)
  | eagerWithoutSuspension =>
    rw [lower]
    cases found : setting.eagerWithoutSuspension? e with
    | some c => exact .pure (by rw [Setting.pointsOf, Setting.eagerWithoutSuspension_points found])
    | none => exact .pure (.refl _)

/-- The suspension point of an instruction that waits. -/
def Instr.point? : Instr → Option Nat
  | .await _ _ point => some point
  | _ => none

theorem Program.resumePoints_eq (p : Program) : p.resumePoints = p.instrs.filterMap Instr.point? := by
  refine congrArg (fun point? => p.instrs.filterMap point?) (funext fun instr => ?_)
  cases instr <;> rfl

namespace Code

theorem emitAll_points {items : List Code}
    (each : ∀ c ∈ items, ∀ start next dst, (c.emit start next dst).1.filterMap Instr.point? = c.points)
    (start next : Nat) : (emitAll items start next).1.filterMap Instr.point? = pointsOfAll items := by
  induction items generalizing start next with
  | nil => rfl
  | cons c rest ih =>
    rw [emitAll, List.filterMap_append, each c List.mem_cons_self,
      ih (fun c member => each c (List.mem_cons_of_mem _ member)), pointsOfAll]

/-- The instructions wait where the code does, in the same order and with the same numbers. -/
theorem emit_points (c : Code) (start next dst : Nat) :
    (c.emit start next dst).1.filterMap Instr.point? = c.points := by
  have nothing : ∀ {instr : Instr}, instr.point? = none → [instr].filterMap Instr.point? = [] := by
    intro instr none
    rw [List.filterMap_cons_none none, List.filterMap_nil]
  induction c generalizing start next dst with
  | nullHandle | const | param | binding => rfl
  | box inner ih | resolve inner ih | truthy inner ih | unary op inner ih | field inner name safe ih =>
    rw [emit, List.filterMap_append, ih, nothing rfl, List.append_nil, points]
  | await provider point ih =>
    rw [emit, List.filterMap_append, ih, points]
    rfl
  | firstPresent left right ihLeft ihRight =>
    rw [emit, List.filterMap_append, List.filterMap_append, ihLeft, nothing rfl, ihRight, List.append_nil, points]
  | ternary condition yes no ihCondition ihYes ihNo =>
    simp only [emit, List.filterMap_append, ihCondition, ihYes, ihNo]
    rw [nothing rfl, List.append_nil, nothing rfl, List.append_nil, points]
  | binary op left right ihLeft ihRight | index left right safe ihLeft ihRight =>
    rw [emit, List.filterMap_append, List.filterMap_append, ihLeft, ihRight, nothing rfl, List.append_nil, points]
  | list items ih | call name items ih =>
    rw [emit, List.filterMap_append, emitAll_points ih, nothing rfl, List.append_nil, points]

end Code

theorem Program.assemble_resumePoints (c : TypedCode) : (assemble c).resumePoints = c.code.points :=
  (resumePoints_eq _).trans (c.code.emit_points 0 1 0)

/-- The code has taken the numbers from `next` up to `after`: each of them stands at one suspension point, and no
other number does. -/
structure TypedCode.Numbered (c : TypedCode) (next after : Nat) : Prop where
  grows : next ≤ after
  points : c.code.points.Perm (List.range' next (after - next))
  length : c.code.points.length = after - next
  resumePoints : (Program.assemble c).resumePoints.Perm (List.range' next (after - next))

theorem TypedCode.Numbered.ofPoints {c : TypedCode} {next count : Nat}
    (labels : c.code.points.Perm (List.range' next count)) : c.Numbered next (next + count) := by
  have taken : next + count - next = count := Nat.add_sub_cancel_left next count
  refine ⟨Nat.le_add_right next count, ?_, ?_, ?_⟩
  · rw [taken]
    exact labels
  · rw [taken, labels.length_eq, List.length_range']
  · rw [taken, Program.assemble_resumePoints]
    exact labels

/-- What is asked for: code for an expression in its setting. -/
structure Request where
  setting : Setting
  entry : Entry
  expr : Expr

/-- The codes that requests in a row give. All of them take their numbers from one count. -/
def Request.lowerAll : List Request → StateM Nat (List TypedCode)
  | [] => pure []
  | r :: rest => do
    let answer ← r.entry.lower r.setting r.expr
    let others ← lowerAll rest
    pure (answer.toList ++ others)

/-- The points of codes in a row. -/
def TypedCode.pointsOfAll (codes : List TypedCode) : List Nat := codes.flatMap fun c => c.code.points

theorem Request.lowerAll_labels (requests : List Request) :
    Labels [] (lowerAll requests) TypedCode.pointsOfAll := by
  induction requests with
  | nil => exact .pure (.refl _)
  | cons r rest ih =>
    rw [lowerAll]
    refine (r.entry.lower_labels r.setting r.expr).bind fun answer => ?_
    refine (ih.after (Setting.pointsOf answer)).bind fun codes => .pure ?_
    rw [TypedCode.pointsOfAll, List.flatMap_append]
    cases answer with
    | some c => rw [Option.toList_some, List.flatMap_singleton, Setting.pointsOf, TypedCode.pointsOfAll]
    | none => exact .refl _

/-- Suspension points are numbered without gaps and without repetition. Code has exactly the numbers that were taken
while it was made, and where none is given none was taken, whatever was tried before. Codes that are made one after
another share no number. -/
theorem Request.lower_numbered :
    (∀ (r : Request) (next : Nat), match r.entry.lower r.setting r.expr next with
      | (some c, after) => c.Numbered next after
      | (none, after) => after = next) ∧
    ∀ (requests : List Request) (next : Nat),
      (TypedCode.pointsOfAll (lowerAll requests next).1).Perm
        (List.range' next ((lowerAll requests next).2 - next)) ∧
      (lowerAll requests next).1.Pairwise fun a b => a.code.points.Disjoint b.code.points := by
  refine ⟨fun r next => ?_, fun requests next => ?_⟩
  · obtain ⟨count, atEnd, labels⟩ := r.entry.lower_labels r.setting r.expr next
    generalize r.entry.lower r.setting r.expr next = answer at atEnd labels
    obtain ⟨_ | c, after⟩ := answer
    · have none : count = 0 := by
        have length := labels.length_eq
        rw [List.nil_append, List.length_range'] at length
        exact length.symm
      rw [none] at atEnd
      exact atEnd
    · cases atEnd
      exact .ofPoints labels
  · obtain ⟨count, atEnd, labels⟩ := lowerAll_labels requests next
    rw [atEnd, Nat.add_sub_cancel_left]
    refine ⟨labels, ?_⟩
    have once := labels.nodup_iff.mpr (List.nodup_range')
    exact (List.nodup_flatMap.mp once).2

end LazyExpr
