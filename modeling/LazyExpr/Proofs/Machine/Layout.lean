import LazyExpr.Proofs.Induction
import LazyExpr.Proofs.Machine.Steps

namespace LazyExpr

/-- The instructions stand in the program from index `start` on. -/
def Program.Places (p : Program) (start : Nat) (code : List Instr) : Prop :=
  ∀ i instr, code[i]? = some instr → p.instrs[start + i]? = some instr

/-- Jumps of instructions that stand from index `start` on lead forward, and no further than `stop`. -/
def JumpsUpTo (stop start : Nat) (code : List Instr) : Prop :=
  ∀ i instr, code[i]? = some instr → ∀ target ∈ Instr.targets instr, start + i < target ∧ target ≤ stop

/-- What holds of all instructions by their index holds of a row exactly when it holds of its parts. -/
theorem forall_getElem?_append {α : Type} {P : Nat → α → Prop} {a b : List α} :
    (∀ i x, (a ++ b)[i]? = some x → P i x) ↔
      (∀ i x, a[i]? = some x → P i x) ∧ ∀ i x, b[i]? = some x → P (a.length + i) x := by
  constructor
  · intro all
    refine ⟨fun i x found => ?_, fun i x found => ?_⟩
    · have bound := (List.getElem?_eq_some_iff.mp found).1
      exact all i x (by rw [List.getElem?_append_left bound]; exact found)
    · exact all _ x (by rw [List.getElem?_append_right (by omega)]; simpa using found)
  · rintro ⟨left, right⟩ i x found
    by_cases before : i < a.length
    · exact left i x (by rw [List.getElem?_append_left before] at found; exact found)
    · rw [List.getElem?_append_right (by omega)] at found
      have same : a.length + (i - a.length) = i := by omega
      exact same ▸ right _ x found

theorem forall_getElem?_singleton {α : Type} {P : Nat → α → Prop} {a : α} :
    (∀ i x, [a][i]? = some x → P i x) ↔ P 0 a := by
  constructor
  · intro all
    exact all 0 a rfl
  · intro holds i x found
    cases i with
    | zero => cases found; exact holds
    | succ i => cases found

namespace Program

@[simp]
theorem places_append {p : Program} {start : Nat} {a b : List Instr} :
    p.Places start (a ++ b) ↔ p.Places start a ∧ p.Places (start + a.length) b := by
  simp only [Places, forall_getElem?_append, Nat.add_assoc]

@[simp]
theorem places_singleton {p : Program} {start : Nat} {instr : Instr} :
    p.Places start [instr] ↔ p.instrs[start]? = some instr := by
  simp only [Places, forall_getElem?_singleton, Nat.add_zero]

end Program

@[simp]
theorem jumpsUpTo_append {stop start : Nat} {a b : List Instr} :
    JumpsUpTo stop start (a ++ b) ↔ JumpsUpTo stop start a ∧ JumpsUpTo stop (start + a.length) b := by
  simp only [JumpsUpTo, forall_getElem?_append, Nat.add_assoc]

@[simp]
theorem jumpsUpTo_singleton {stop start : Nat} {instr : Instr} :
    JumpsUpTo stop start [instr] ↔ ∀ target ∈ instr.targets, start < target ∧ target ≤ stop := by
  simp only [JumpsUpTo, forall_getElem?_singleton, Nat.add_zero]

theorem JumpsUpTo.mono {stop stop' start : Nat} {code : List Instr} (jumps : JumpsUpTo stop start code)
    (further : stop ≤ stop') : JumpsUpTo stop' start code :=
  fun i instr found target member =>
    ⟨(jumps i instr found target member).1, Nat.le_trans (jumps i instr found target member).2 further⟩

namespace Code

theorem next_le_emitAll {cs : List Code}
    (each : ∀ c ∈ cs, ∀ start next dst, next ≤ (emit c start next dst).2) (start next : Nat) :
    next ≤ (emitAll cs start next).2.2 := by
  induction cs generalizing start next with
  | nil => exact Nat.le_refl _
  | cons c rest ih =>
    have first := each c List.mem_cons_self start (next + 1) next
    have others := ih (fun c member => each c (List.mem_cons_of_mem _ member))
      (start + (emit c start (next + 1) next).1.length) (emit c start (next + 1) next).2
    exact Nat.le_trans (Nat.le_of_succ_le first) others

/-- Registers are only ever added. -/
theorem next_le_emit (c : Code) (start next dst : Nat) : next ≤ (c.emit start next dst).2 := by
  induction c generalizing start next dst with
  | list items ih => exact next_le_emitAll ih start next
  | call name args ih => exact next_le_emitAll ih start next
  | nullHandle | const | param | binding => exact Nat.le_refl _
  | box _ ih | resolve _ ih | truthy _ ih | await _ _ ih | unary _ _ ih | field _ _ _ ih =>
    exact Nat.le_of_succ_le (ih start (next + 1) next)
  | firstPresent left right ihLeft ihRight => exact Nat.le_trans (ihLeft _ _ _) (ihRight _ _ _)
  | binary op left right ihLeft ihRight =>
    have first := ihLeft start (next + 1) next
    exact Nat.le_trans (Nat.le_of_succ_le first) (Nat.le_of_succ_le (ihRight _ _ _))
  | index base key safe ihBase ihKey =>
    have first := ihBase start (next + 1) next
    exact Nat.le_trans (Nat.le_of_succ_le first) (Nat.le_of_succ_le (ihKey _ _ _))
  | ternary condition yes no ihCondition ihYes ihNo =>
    have first := ihCondition start (next + 1) next
    exact Nat.le_trans (Nat.le_of_succ_le first) (Nat.le_trans (ihYes _ _ _) (ihNo _ _ _))

theorem emitAll_jumpsUpTo {cs : List Code}
    (each : ∀ c ∈ cs, ∀ start next dst, JumpsUpTo (start + (emit c start next dst).1.length) start
      (emit c start next dst).1) (start next : Nat) :
    JumpsUpTo (start + (emitAll cs start next).1.length) start (emitAll cs start next).1 := by
  induction cs generalizing start next with
  | nil =>
    intro i instr found
    cases found
  | cons c rest ih =>
    have first := each c List.mem_cons_self start (next + 1) next
    have others := ih (fun c member => each c (List.mem_cons_of_mem _ member))
      (start + (emit c start (next + 1) next).1.length) (emit c start (next + 1) next).2
    simp only [emitAll, jumpsUpTo_append, List.length_append]
    exact ⟨first.mono (by omega), others.mono (by omega)⟩

/-- Code jumps forward only, and never out of itself. -/
theorem emit_jumpsUpTo (c : Code) (start next dst : Nat) :
    JumpsUpTo (start + (c.emit start next dst).1.length) start (c.emit start next dst).1 := by
  induction c generalizing start next dst with
  | list items ih =>
    simp only [emit, jumpsUpTo_append, jumpsUpTo_singleton, List.length_append, Instr.targets]
    exact ⟨(emitAll_jumpsUpTo ih start next).mono (by omega), by simp⟩
  | call name args ih =>
    simp only [emit, jumpsUpTo_append, jumpsUpTo_singleton, List.length_append, Instr.targets]
    exact ⟨(emitAll_jumpsUpTo ih start next).mono (by omega), by simp⟩
  | nullHandle | const | param | binding => simp [emit, Instr.targets]
  | box _ ih | resolve _ ih | truthy _ ih | await _ _ ih | unary _ _ ih | field _ _ _ ih =>
    simp only [emit, jumpsUpTo_append, jumpsUpTo_singleton, List.length_append, Instr.targets]
    exact ⟨(ih start (next + 1) next).mono (by omega), by simp⟩
  | firstPresent left right ihLeft ihRight =>
    simp only [emit, jumpsUpTo_append, jumpsUpTo_singleton, List.length_append, List.length_singleton,
      Instr.targets, List.mem_singleton, forall_eq]
    simp only [← Nat.add_assoc]
    exact ⟨⟨(ihLeft _ _ _).mono (by omega), by omega, by omega⟩, (ihRight _ _ _).mono (by omega)⟩
  | binary op left right ihLeft ihRight =>
    simp only [emit, jumpsUpTo_append, jumpsUpTo_singleton, List.length_append, Instr.targets]
    exact ⟨⟨(ihLeft _ _ _).mono (by omega), (ihRight _ _ _).mono (by omega)⟩, by simp⟩
  | index base key safe ihBase ihKey =>
    simp only [emit, jumpsUpTo_append, jumpsUpTo_singleton, List.length_append, Instr.targets]
    exact ⟨⟨(ihBase _ _ _).mono (by omega), (ihKey _ _ _).mono (by omega)⟩, by simp⟩
  | ternary condition yes no ihCondition ihYes ihNo =>
    simp only [emit, jumpsUpTo_append, jumpsUpTo_singleton, List.length_append, List.length_singleton,
      Instr.targets, List.mem_singleton, forall_eq]
    simp only [← Nat.add_assoc]
    refine ⟨⟨⟨⟨(ihCondition _ _ _).mono (by omega), by omega, by omega⟩, ?_⟩, by omega, by omega⟩, ?_⟩
    · exact (ihYes _ _ _).mono (by omega)
    · exact (ihNo _ _ _).mono (by omega)

end Code

/-- The programs of code jump forward only. -/
theorem Program.assemble_forward (c : TypedCode) : (Program.assemble c).Forward := by
  intro i instr found target member
  have jumps := c.code.emit_jumpsUpTo 0 1 0 i instr found target member
  omega

end LazyExpr
