import LazyExpr.Proofs.Lowering.Numbering
import LazyExpr.Proofs.Lowering.Waiting

namespace LazyExpr

namespace Code

mutual

/-- The code with `n` added to the number of each of its suspension points. -/
def shift (n : Nat) : Code → Code
  | nullHandle => nullHandle
  | const value => const value
  | param name => param name
  | binding name => binding name
  | box inner => box (shift n inner)
  | await provider point => await (shift n provider) (point + n)
  | resolve inner => resolve (shift n inner)
  | firstPresent left right => firstPresent (shift n left) (shift n right)
  | ternary condition yes no => ternary (shift n condition) (shift n yes) (shift n no)
  | truthy inner => truthy (shift n inner)
  | binary op left right => binary op (shift n left) (shift n right)
  | unary op operand => unary op (shift n operand)
  | field base name safe => field (shift n base) name safe
  | index base key safe => index (shift n base) (shift n key) safe
  | list items => list (shiftAll n items)
  | call name args => call name (shiftAll n args)

def shiftAll (n : Nat) : List Code → List Code
  | [] => []
  | code :: rest => shift n code :: shiftAll n rest

end

theorem points_shiftAll {n : Nat} {items : List Code}
    (each : ∀ c ∈ items, (c.shift n).points = c.points.map (· + n)) :
    pointsOfAll (shiftAll n items) = (pointsOfAll items).map (· + n) := by
  induction items with
  | nil => rfl
  | cons c rest ih =>
    rw [shiftAll, pointsOfAll, pointsOfAll, List.map_append, each c List.mem_cons_self,
      ih fun c member => each c (List.mem_cons_of_mem _ member)]

theorem points_shift (n : Nat) (c : Code) : (c.shift n).points = c.points.map (· + n) := by
  induction c with
  | nullHandle | const | param | binding => rfl
  | box inner ih | resolve inner ih | truthy inner ih | unary op inner ih | field inner name safe ih =>
    rw [shift, points, points, ih]
  | await provider point ih => rw [shift, points, points, ih, List.map_append, List.map_singleton]
  | firstPresent left right ihLeft ihRight | binary op left right ihLeft ihRight
  | index left right safe ihLeft ihRight =>
    rw [shift, points, points, ihLeft, ihRight, List.map_append]
  | ternary condition yes no ihCondition ihYes ihNo =>
    rw [shift, points, points, ihCondition, ihYes, ihNo, List.map_append, List.map_append]
  | list items ih | call name items ih => rw [shift, points, points, points_shiftAll ih]

theorem shiftAll_of_points_nil {n : Nat} {items : List Code}
    (each : ∀ c ∈ items, c.points = [] → c.shift n = c) (none : pointsOfAll items = []) :
    shiftAll n items = items := by
  induction items with
  | nil => rfl
  | cons c rest ih =>
    obtain ⟨first, others⟩ := List.append_eq_nil_iff.mp none
    rw [shiftAll, each c List.mem_cons_self first,
      ih (fun c member => each c (List.mem_cons_of_mem _ member)) others]

/-- Code that does not wait has no numbers to change. -/
theorem shift_of_points_nil {n : Nat} {c : Code} (none : c.points = []) : c.shift n = c := by
  induction c with
  | nullHandle | const | param | binding => rfl
  | box inner ih | resolve inner ih | truthy inner ih | unary op inner ih | field inner name safe ih =>
    rw [shift, ih none]
  | await provider point ih => cases List.append_ne_nil_of_right_ne_nil _ (List.cons_ne_nil _ _) none
  | firstPresent left right ihLeft ihRight | binary op left right ihLeft ihRight
  | index left right safe ihLeft ihRight =>
    obtain ⟨first, second⟩ := List.append_eq_nil_iff.mp none
    rw [shift, ihLeft first, ihRight second]
  | ternary condition yes no ihCondition ihYes ihNo =>
    obtain ⟨both, third⟩ := List.append_eq_nil_iff.mp none
    obtain ⟨first, second⟩ := List.append_eq_nil_iff.mp both
    rw [shift, ihCondition first, ihYes second, ihNo third]
  | list items ih | call name items ih => rw [shift, shiftAll_of_points_nil ih none]

end Code

namespace TypedCode

def shift (n : Nat) (c : TypedCode) : TypedCode := ⟨c.code.shift n, c.storage⟩

variable {n : Nat}

@[simp]
theorem shift_resolved (c : TypedCode) : c.resolved.shift n = (c.shift n).resolved := by
  obtain ⟨code, storage⟩ := c
  cases storage <;> rfl

@[simp]
theorem shift_boxed (c : TypedCode) : c.boxed.shift n = (c.shift n).boxed := by
  obtain ⟨code, storage⟩ := c
  cases storage <;> rfl

@[simp]
theorem shift_intoBranch (c : TypedCode) : c.intoBranch.shift n = (c.shift n).intoBranch := by
  obtain ⟨code, storage⟩ := c
  cases storage <;> rfl

@[simp]
theorem shift_firstPresent (left right : TypedCode) :
    (left.firstPresent right).shift n = (left.shift n).firstPresent (right.shift n) := rfl

@[simp]
theorem shift_ternary (condition yes no : TypedCode) :
    (ternary condition yes no).shift n = ternary (condition.shift n) (yes.shift n) (no.shift n) := by
  rw [ternary, ternary, ← shift_intoBranch]
  rfl

theorem shift_of_points_nil {c : TypedCode} (none : c.code.points = []) : c.shift n = c := by
  rw [shift, Code.shift_of_points_nil none]

end TypedCode

/-- The instruction with `n` added to its number, if it waits. -/
def Instr.shift (n : Nat) : Instr → Instr
  | .await dst src point => .await dst src (point + n)
  | instr => instr

namespace Code

theorem emitAll_shift {n : Nat} {items : List Code}
    (each : ∀ c ∈ items, ∀ start next dst,
      (c.shift n).emit start next dst = ((c.emit start next dst).1.map (Instr.shift n), (c.emit start next dst).2))
    (start next : Nat) : emitAll (shiftAll n items) start next =
      ((emitAll items start next).1.map (Instr.shift n), (emitAll items start next).2) := by
  induction items generalizing start next with
  | nil => rfl
  | cons c rest ih =>
    have others := ih fun c member => each c (List.mem_cons_of_mem _ member)
    simp only [shiftAll, emitAll, each c List.mem_cons_self, others, List.length_map, List.map_append]

/-- Numbers take no room, so that everything else stands where it stood. -/
theorem emit_shift (n : Nat) (c : Code) (start next dst : Nat) :
    (c.shift n).emit start next dst =
      ((c.emit start next dst).1.map (Instr.shift n), (c.emit start next dst).2) := by
  induction c generalizing start next dst with
  | nullHandle | const | param | binding => rfl
  | box inner ih | await provider point ih | resolve inner ih | truthy inner ih | unary op inner ih
  | field inner name safe ih =>
    simp only [shift, emit, ih, List.map_append]
    rfl
  | firstPresent left right ihLeft ihRight | binary op left right ihLeft ihRight
  | index left right safe ihLeft ihRight =>
    simp only [shift, emit, ihLeft, ihRight, List.length_map, List.map_append]
    rfl
  | ternary condition yes no ihCondition ihYes ihNo =>
    simp only [shift, emit, ihCondition, ihYes, ihNo, List.length_map, List.map_append]
    rfl
  | list items ih | call name items ih =>
    simp only [shift, emit, emitAll_shift ih, List.map_append]
    rfl

end Code

def Program.shift (n : Nat) (p : Program) : Program := { p with instrs := p.instrs.map (Instr.shift n) }

theorem Program.assemble_shift (n : Nat) (c : TypedCode) : assemble (c.shift n) = (assemble c).shift n := by
  simp only [assemble, TypedCode.shift, Code.emit_shift]
  rfl

/-- What a print site is given stays what it is, with all suspension points of its code moved. -/
def Setting.PrintPlan.shift (n : Nat) : Setting.PrintPlan → Setting.PrintPlan
  | stream code => stream (code.shift n)
  | value code => value (code.shift n)

/-- Started `n` numbers later, the second computation takes as many numbers as the first one and gives the same,
moved by `move`. -/
def Moved {α β : Type} (n : Nat) (move : α → β) (x : StateM Nat α) (y : StateM Nat β) : Prop :=
  ∀ next, y (next + n) = (move (x next).1, (x next).2 + n)

namespace Moved

variable {α β γ δ : Type} {n : Nat} {move : α → β} {move' : γ → δ} {x : StateM Nat α} {y : StateM Nat β}

theorem pure {a : α} {b : β} (same : b = move a) : Moved n move (pure a) (pure b) :=
  fun next => congrArg (·, next + n) same

theorem bind {k : α → StateM Nat γ} {l : β → StateM Nat δ} (first : Moved n move x y)
    (rest : ∀ a, Moved n move' (k a) (l (move a))) : Moved n move' (x >>= k) (y >>= l) := by
  intro next
  have sequence : (y >>= l) (next + n) = l (y (next + n)).1 (y (next + n)).2 := rfl
  rw [sequence, first next]
  exact rest _ _

theorem map {f : α → γ} {g : β → δ} (first : Moved n move x y) (same : ∀ a, g (move a) = move' (f a)) :
    Moved n move' (f <$> x) (g <$> y) := by
  intro next
  have sequence : (g <$> y) (next + n) = (g (y (next + n)).1, (y (next + n)).2) := rfl
  rw [sequence, first next, same]
  rfl

end Moved

theorem waitFor_moved (n : Nat) (provider : TypedCode) :
    Moved n (TypedCode.shift n) (waitFor provider) (waitFor (provider.shift n)) := by
  intro next
  have storage : (provider.shift n).storage = provider.storage := rfl
  unfold waitFor
  rw [storage]
  by_cases present : provider.storage.isPresent
  · rw [if_pos present, if_pos present]
  · rw [if_neg present, if_neg present, Nat.add_right_comm next n 1]
    rfl

namespace Setting

variable {setting : Setting} {mode : Mode} {n : Nat}

theorem provider_shift (layout : Layout) (scope : Scope) (name : String) :
    (layout.provider scope name).shift n = layout.provider scope name :=
  TypedCode.shift_of_points_nil (provider_points layout scope name)

theorem eagerAll_moved {items : List Expr}
    (each : ∀ e ∈ items, Moved n (TypedCode.shift n) (setting.eager e) (setting.eager e)) :
    Moved n (Code.shiftAll n) (setting.eagerAllWith waitFor items) (setting.eagerAllWith waitFor items) := by
  induction items with
  | nil => exact .pure rfl
  | cons e rest ih =>
    rw [eagerAllWith]
    refine (each e List.mem_cons_self).bind fun first => ?_
    exact (ih fun e member => each e (List.mem_cons_of_mem _ member)).bind fun others => .pure rfl

theorem eager_moved (e : Expr) : Moved n (TypedCode.shift n) (setting.eager e) (setting.eager e) := by
  unfold eager
  induction e with
  | null | literal => exact .pure rfl
  | list span items ih | call span name items ih =>
    rw [eagerWith]
    exact (eagerAll_moved ih).bind fun codes => .pure rfl
  | ref span scope name =>
    rw [eagerWith, readWith]
    split
    · have waits := waitFor_moved n (setting.layout.provider scope name)
      rw [provider_shift] at waits
      exact waits.bind fun handle => .pure (TypedCode.shift_resolved handle).symm
    · exact .pure (by rw [TypedCode.shift_resolved, provider_shift])
  | field span base name safe ih | unary span op operand ih =>
    rw [eagerWith]
    exact ih.bind fun b => .pure rfl
  | index span left right safe ihLeft ihRight | binary span op left right ihLeft ihRight =>
    rw [eagerWith]
    exact ihLeft.bind fun l => ihRight.bind fun r => .pure rfl
  | coalesce span left right ihLeft ihRight =>
    rw [eagerWith]
    exact ihLeft.bind fun l => ihRight.bind fun r => .pure (by simp)
  | choose span condition yes no ihCondition ihYes ihNo =>
    rw [eagerWith]
    exact ihCondition.bind fun c => ihYes.bind fun y => ihNo.bind fun n => .pure (by simp)

theorem eagerWithoutSuspension_shift (e : Expr) :
    (setting.eagerWithoutSuspension? e).map (TypedCode.shift n) = setting.eagerWithoutSuspension? e := by
  cases found : setting.eagerWithoutSuspension? e with
  | none => rfl
  | some c => exact congrArg some (TypedCode.shift_of_points_nil (eagerWithoutSuspension_points found))

theorem lowerGeneric_moved (e : Expr) :
    Moved n (Option.map (TypedCode.shift n)) (setting.lowerGeneric? mode e) (setting.lowerGeneric? mode e) := by
  intro next
  rw [lowerGeneric_eq, lowerGeneric_eq]
  split
  · rw [eager_moved e next, Option.map_some, TypedCode.shift_boxed]
  · rfl

theorem orEager_moved (e : Expr) (answer : Option TypedCode) :
    Moved n (TypedCode.shift n) (setting.orEager e answer)
      (setting.orEager e (answer.map (TypedCode.shift n))) := by
  cases answer with
  | some c => exact .pure rfl
  | none => exact (eager_moved e).bind fun c => .pure (TypedCode.shift_boxed c).symm

theorem awaited_moved (e : Expr) (answer : Option TypedCode) :
    Moved n (TypedCode.shift n) (setting.awaited e answer)
      (setting.awaited e (answer.map (TypedCode.shift n))) := by
  cases answer with
  | some c =>
    rw [Option.map_some, awaited, awaited]
    split
    · exact waitFor_moved n c
    · exact .pure rfl
  | none => exact orEager_moved e none

/-- What is tried first does not depend on the numbers that are free, so that both runs go the same way. -/
theorem lower_moved (e : Expr) :
    Moved n (Option.map (TypedCode.shift n)) (setting.lower? mode e) (setting.lower? mode e) := by
  induction e with
  | null => exact .pure rfl
  | ref span scope name =>
    rw [lower?]
    have same := @provider_shift n setting.layout scope name
    generalize setting.layout.provider scope name = provider at same
    split
    · split
      · exact .pure (by rw [Option.map_some, TypedCode.shift_boxed, same])
      · exact .pure rfl
    · exact .pure (by rw [Option.map_some, same])
  | coalesce span left right ihLeft ihRight =>
    rw [lower?]
    split
    · refine ihLeft.bind fun a => ihRight.bind fun b => ?_
      rw [Option.isNone_map, Option.isNone_map]
      split
      · exact lowerGeneric_moved _
      · exact (orEager_moved right b).bind fun r => (awaited_moved left a).bind fun l => .pure rfl
    · exact lowerGeneric_moved _
  | choose span condition yes no _ ihYes ihNo =>
    rw [lower?]
    split
    · refine ihYes.bind fun a => ihNo.bind fun b => ?_
      rw [Option.isNone_map, Option.isNone_map]
      split
      · exact .pure rfl
      · refine (eager_moved condition).bind fun c => (orEager_moved yes a).bind fun y => ?_
        exact (orEager_moved no b).bind fun n => .pure (by simp)
    · exact lowerGeneric_moved _
  | _ => exact lowerGeneric_moved _

theorem compile_moved (e : Expr) : Moved n (TypedCode.shift n) (setting.compile e) (setting.compile e) :=
  (lower_moved e).bind fun answer => orEager_moved e answer

theorem lowerBinding_moved (e : Expr) :
    Moved n (TypedCode.shift n) (setting.lowerBinding e) (setting.lowerBinding e) :=
  (lower_moved e).bind fun answer => orEager_moved e answer

theorem lowerPrint_moved (e : Expr) :
    Moved n (PrintPlan.shift n) (setting.lowerPrint e) (setting.lowerPrint e) := by
  refine (lower_moved e).bind fun answer => ?_
  cases answer with
  | some c => exact .pure rfl
  | none => exact (eager_moved e).bind fun c => .pure rfl

end Setting

theorem Entry.lower_moved {setting : Setting} {n : Nat} (e : Expr) (entry : Entry) :
    Moved n (Option.map (TypedCode.shift n)) (entry.lower setting e) (entry.lower setting e) := by
  cases entry with
  | compile => exact (Setting.compile_moved e).map fun c => rfl
  | streaming | avoiding => exact Setting.lower_moved e
  | inMode mode detacher =>
    rw [lower]
    cases mode.withDetacher detacher with
    | ok mode => exact Setting.lower_moved e
    | error refusal => exact .pure rfl
  | print =>
    refine (Setting.lowerPrint_moved e).map fun plan => ?_
    cases plan <;> rfl
  | binding => exact (Setting.lowerBinding_moved e).map fun c => rfl
  | eager => exact (Setting.eager_moved e).map fun c => rfl
  | eagerWithoutSuspension => exact .pure (Setting.eagerWithoutSuspension_shift e).symm

/-- A computation that starts with `0` tells what it gives with any number. -/
theorem Moved.fromZero {α β : Type} {move : α → β} {next : Nat} {x : StateM Nat α} {y : StateM Nat β}
    (moved : Moved next move x y) : y next = (move (x 0).1, (x 0).2 + next) := by
  rw [← moved 0, Nat.zero_add]

/-- The codes for one request that is made again and again, with one count for all of them. -/
theorem Request.lowerAll_replicate (r : Request) (times next : Nat) :
    lowerAll (List.replicate times r) next =
      ((List.range' next times (r.entry.lower r.setting r.expr 0).2).flatMap fun start =>
          ((r.entry.lower r.setting r.expr 0).1.map (TypedCode.shift start)).toList,
        next + times * (r.entry.lower r.setting r.expr 0).2) := by
  induction times generalizing next with
  | zero => rw [Nat.zero_mul]; rfl
  | succ times ih =>
    have first : lowerAll (List.replicate (times + 1) r) next =
        ((r.entry.lower r.setting r.expr next).1.toList ++
            (lowerAll (List.replicate times r) (r.entry.lower r.setting r.expr next).2).1,
          (lowerAll (List.replicate times r) (r.entry.lower r.setting r.expr next).2).2) := rfl
    rw [first, (r.entry.lower_moved r.expr).fromZero, ih, List.range'_succ, List.flatMap_cons, Nat.add_comm _ next,
      Nat.succ_mul, Nat.add_assoc, Nat.add_comm (times * _)]

/-- Lowering does not depend on the numbers that are free. Started with `next`, any request gives the code that it
gives with `0`, with `next` added to each suspension point, or is declined as with `0`; it takes as many numbers;
and a print site streams in both cases or in neither. So a request that is repeated gives the same code each time
but for the numbers, and the program that is assembled is the same but for them. -/
theorem Entry.lower_renumbers (setting : Setting) (e : Expr) :
    (∀ (entry : Entry) (next : Nat), entry.lower setting e next =
      ((entry.lower setting e 0).1.map (TypedCode.shift next), (entry.lower setting e 0).2 + next)) ∧
    (∀ next, setting.lowerPrint e next =
      ((setting.lowerPrint e 0).1.shift next, (setting.lowerPrint e 0).2 + next)) ∧
    (∀ (entry : Entry) (times next : Nat), Request.lowerAll (List.replicate times ⟨setting, entry, e⟩) next =
      ((List.range' next times (entry.lower setting e 0).2).flatMap fun start =>
          ((entry.lower setting e 0).1.map (TypedCode.shift start)).toList,
        next + times * (entry.lower setting e 0).2)) ∧
    ∀ (c : TypedCode) (n : Nat), Program.assemble (c.shift n) = (Program.assemble c).shift n ∧
      (c.shift n).code.points = c.code.points.map (· + n) :=
  ⟨fun entry _ => (entry.lower_moved e).fromZero, fun _ => (Setting.lowerPrint_moved e).fromZero,
    fun entry times next => Request.lowerAll_replicate ⟨setting, entry, e⟩ times next,
    fun c n => ⟨Program.assemble_shift n c, c.code.points_shift n⟩⟩

end LazyExpr
