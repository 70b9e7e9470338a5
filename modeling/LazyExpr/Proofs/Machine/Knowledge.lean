import LazyExpr.Proofs.Machine.Registers

namespace LazyExpr

/-- What code may count on and what it owes: the lookups that give slots which are known, whether slots have to
be known to be awaited, and whether the result has to be known. -/
structure Regime where
  trusted : Event → Prop
  awaits : Prop
  result : Prop

/-- The registers that are known behind an instruction. -/
def Instr.learns (t : Regime) (known : Nat → Prop) (instr : Instr) (r : Nat) : Prop :=
  if instr.writes? = some r then ∀ event, instr.asks? = some event → t.trusted event else known r

/-- On no path from here on does an instruction look at a register that is not known by then. -/
inductive Program.Safe (p : Program) (t : Regime) : Nat → (Nat → Prop) → Prop
  | behind {pc known} : p.instrs[pc]? = none → (t.result → known 0) → Safe p t pc known
  | instr {pc known instr} : p.instrs[pc]? = some instr →
      (∀ r ∈ instr.reads, (instr.isAwait → t.awaits) → known r) →
      (∀ next ∈ instr.successors pc, Safe p t next (instr.learns t known)) → Safe p t pc known

namespace Code

/-- The slot of the code is known, whatever the host does. -/
def Settled (t : Regime) : Code → Prop
  | param name => t.trusted (.param name)
  | binding name => t.trusted (.binding name)
  | firstPresent left right => left.Settled t ∧ right.Settled t
  | ternary _ yes no => yes.Settled t ∧ no.Settled t
  | _ => True

/-- Nothing but waiting is done to a slot that is not known. -/
inductive Disciplined (t : Regime) : Code → Prop
  | nullHandle : Disciplined t .nullHandle
  | const {value} : Disciplined t (.const value)
  | param {name} : Disciplined t (.param name)
  | binding {name} : Disciplined t (.binding name)
  | box {inner} : inner.Settled t → Disciplined t inner → Disciplined t (.box inner)
  | await {provider point} : (t.awaits → provider.Settled t) → Disciplined t provider →
      Disciplined t (.await provider point)
  | resolve {inner} : inner.Settled t → Disciplined t inner → Disciplined t (.resolve inner)
  | firstPresent {left right} : left.Settled t → Disciplined t left → Disciplined t right →
      Disciplined t (.firstPresent left right)
  | ternary {condition yes no} : condition.Settled t → Disciplined t condition → Disciplined t yes →
      Disciplined t no → Disciplined t (.ternary condition yes no)
  | truthy {inner} : inner.Settled t → Disciplined t inner → Disciplined t (.truthy inner)
  | binary {op left right} : left.Settled t → right.Settled t → Disciplined t left → Disciplined t right →
      Disciplined t (.binary op left right)
  | unary {op operand} : operand.Settled t → Disciplined t operand → Disciplined t (.unary op operand)
  | field {base name safe} : base.Settled t → Disciplined t base → Disciplined t (.field base name safe)
  | index {base key safe} : base.Settled t → key.Settled t → Disciplined t base → Disciplined t key →
      Disciplined t (.index base key safe)
  | list {items} : (∀ c ∈ items, Settled t c) → (∀ c ∈ items, Disciplined t c) → Disciplined t (.list items)
  | call {name args} : (∀ c ∈ args, Settled t c) → (∀ c ∈ args, Disciplined t c) →
      Disciplined t (.call name args)

end Code

namespace Program

variable {p : Program} {t : Regime}

/-- The program is safe from `stop` on once a slot has been left in register `dst`, which is known if `settled`
holds, and the registers below `next` are known that were known before. -/
def Accepts (p : Program) (t : Regime) (stop next dst : Nat) (settled : Prop) (known : Nat → Prop) : Prop :=
  ∀ known' : Nat → Prop, (∀ r < next, r ≠ dst → known r → known' r) → (settled → known' dst) → p.Safe t stop known'

/-- The last instruction of a piece of code leaves its result behind. -/
theorem Accepts.last {stop next dst : Nat} {settled : Prop} {known known' : Nat → Prop} {instr : Instr}
    (accepts : p.Accepts t (stop + 1) next dst settled known) (found : p.instrs[stop]? = some instr)
    (writes : instr.writes? = some dst) (falls : instr.successors stop = [stop + 1])
    (asks : settled → ∀ event, instr.asks? = some event → t.trusted event)
    (reads : ∀ r ∈ instr.reads, (instr.isAwait → t.awaits) → known' r)
    (kept : ∀ r < next, known r → known' r) : p.Safe t stop known' := by
  refine .instr found reads fun after member => ?_
  rw [falls, List.mem_singleton] at member
  subst member
  refine accepts _ (fun r below other before => ?_) fun settled => ?_
  · rw [Instr.learns, writes, if_neg fun same => other (Option.some.inj same).symm]
    exact kept r below before
  · rw [Instr.learns, if_pos writes]
    exact asks settled

theorem Accepts.computes {stop next dst : Nat} {srcs : List Nat} {settled : Prop} {known known' : Nat → Prop}
    {instr : Instr} (accepts : p.Accepts t (stop + 1) next dst settled known) (found : p.instrs[stop]? = some instr)
    (computes : instr.Computes dst srcs) (reads : ∀ r ∈ srcs, (instr.isAwait → t.awaits) → known' r)
    (kept : ∀ r < next, known r → known' r) : p.Safe t stop known' := by
  refine accepts.last found computes.writes (computes.falls stop) (fun _ event asked => ?_)
    (computes.reads ▸ reads) kept
  rw [computes.asks] at asked
  cases asked

end Program

namespace Code

open Program

variable {p : Program} {t : Regime}

/-- Wherever its instructions are placed, a program is safe from the start of the code on if it is safe behind
it. -/
def Guarded (p : Program) (t : Regime) (c : Code) : Prop :=
  ∀ start next dst known, p.Places start (c.emit start next dst).1 → dst < next →
    p.Accepts t (start + (c.emit start next dst).1.length) next dst (c.Settled t) known → p.Safe t start known

theorem Guarded.operand {c : Code} (guarded : Guarded p t c) {start next : Nat} {known : Nat → Prop}
    (places : p.Places start (c.emit start (next + 1) next).1)
    (behind : ∀ known' : Nat → Prop, (∀ r < next, known r → known' r) → (c.Settled t → known' next) →
      p.Safe t (start + (c.emit start (next + 1) next).1.length) known') : p.Safe t start known := by
  refine guarded start (next + 1) next known places (Nat.lt_succ_self next) fun known' kept result => ?_
  exact behind known' (fun r below => kept r (by omega) (by omega)) result

/-- Code whose one operand is known when an instruction looks at it. -/
theorem Guarded.withOperand {c inner : Code} (ih : Guarded p t inner) (instr : Nat → Nat → Instr)
    (layout : ∀ start next dst, c.emit start next dst =
      ((inner.emit start (next + 1) next).1 ++ [instr dst next], (inner.emit start (next + 1) next).2))
    (computes : ∀ dst src, (instr dst src).Computes dst [src])
    (settled : ∀ dst src, ((instr dst src).isAwait → t.awaits) → inner.Settled t) : Guarded p t c := by
  intro start next dst known places below accepts
  rw [layout] at places accepts
  simp only [places_append, places_singleton] at places
  simp only [List.length_append, List.length_singleton, ← Nat.add_assoc] at accepts
  refine ih.operand places.1 fun known' kept result => ?_
  refine accepts.computes places.2 (computes _ _) (fun r member needed => ?_) kept
  · rw [List.mem_singleton] at member
    exact member ▸ result (settled _ _ needed)

theorem Guarded.withOperands {c first second : Code} (ihFirst : Guarded p t first) (ihSecond : Guarded p t second)
    (instr : Nat → Nat → Nat → Instr)
    (layout : ∀ start next dst, c.emit start next dst =
      let (firstCode, middle) := first.emit start (next + 1) next
      let (secondCode, free) := second.emit (start + firstCode.length) (middle + 1) middle
      (firstCode ++ secondCode ++ [instr dst next middle], free))
    (computes : ∀ dst a b, (instr dst a b).Computes dst [a, b])
    (settledFirst : first.Settled t) (settledSecond : second.Settled t) : Guarded p t c := by
  intro start next dst known places below accepts
  rw [layout] at places accepts
  simp only [places_append, places_singleton, List.length_append, ← Nat.add_assoc] at places
  simp only [List.length_append, List.length_singleton, ← Nat.add_assoc] at accepts
  have up := first.next_le_emit start (next + 1) next
  refine ihFirst.operand places.1.1 fun known' kept resultFirst => ?_
  refine ihSecond.operand places.1.2 fun known'' kept' resultSecond => ?_
  refine accepts.computes places.2 (computes _ _ _) (fun r member _ => ?_) ?_
  · rcases List.mem_cons.mp member with same | member
    · exact same ▸ kept' next (by omega) (resultFirst settledFirst)
    · exact List.mem_singleton.mp member ▸ resultSecond settledSecond
  · intro r under before
    exact kept' r (by omega) (kept r under before)

theorem Guarded.ofLeaf {c : Code} (instr : Nat → Instr)
    (layout : ∀ start next dst, c.emit start next dst = ([instr dst], next))
    (writes : ∀ dst, (instr dst).writes? = some dst)
    (falls : ∀ dst stop, (instr dst).successors stop = [stop + 1]) (reads : ∀ dst, (instr dst).reads = [])
    (asks : ∀ dst, c.Settled t → ∀ event, (instr dst).asks? = some event → t.trusted event) : Guarded p t c := by
  intro start next dst known places below accepts
  rw [layout] at places accepts
  refine accepts.last (places_singleton.mp places) (writes _) (falls _ _) (asks _) (fun r member _ => ?_)
    fun _ _ before => before
  rw [reads] at member
  cases member

theorem guarded_firstPresent {left right : Code} (settled : left.Settled t) (ihLeft : Guarded p t left)
    (ihRight : Guarded p t right) : Guarded p t (.firstPresent left right) := by
  intro start next dst known places below accepts
  simp only [emit, places_append, places_singleton, List.length_append, List.length_singleton,
    ← Nat.add_assoc] at places accepts
  have up := left.next_le_emit start next dst
  refine ihLeft start next dst known places.1.1 below fun known' kept result => ?_
  refine .instr places.1.2 (fun r member _ => ?_) fun after member => ?_
  · exact List.mem_singleton.mp member ▸ result settled
  · rcases List.mem_cons.mp member with same | member
    · subst same
      refine ihRight _ _ dst _ places.2 (by omega) fun known'' kept' result' => ?_
      exact accepts known'' (fun r under other before => kept' r (by omega) other (kept r under other before))
        fun both => result' both.2
    · rw [List.mem_singleton.mp member]
      exact accepts _ kept fun both => result both.1

theorem guarded_ternary {condition yes no : Code} (settled : condition.Settled t)
    (ihCondition : Guarded p t condition) (ihYes : Guarded p t yes) (ihNo : Guarded p t no) :
    Guarded p t (.ternary condition yes no) := by
  intro start next dst known places below accepts
  simp only [emit, places_append, places_singleton, List.length_append, List.length_singleton,
    ← Nat.add_assoc] at places accepts
  have up := condition.next_le_emit start (next + 1) next
  have upYes := yes.next_le_emit (start + (condition.emit start (next + 1) next).1.length + 1)
    (condition.emit start (next + 1) next).2 dst
  refine ihCondition.operand places.1.1.1.1 fun known' kept result => ?_
  refine .instr places.1.1.1.2 (fun r member _ => ?_) fun after member => ?_
  · exact List.mem_singleton.mp member ▸ result settled
  · rcases List.mem_cons.mp member with same | member
    · subst same
      refine ihYes _ _ dst _ places.1.1.2 (by omega) fun known'' kept' result' => ?_
      refine .instr places.1.2 (fun r member => absurd member List.not_mem_nil) fun after' member' => ?_
      rw [List.mem_singleton.mp member']
      exact accepts _ (fun r under other before => kept' r (by omega) other (kept r under before))
        fun both => result' both.1
    · rw [List.mem_singleton.mp member]
      refine ihNo _ _ dst _ places.2 (by omega) fun known'' kept' result' => ?_
      exact accepts known'' (fun r under other before => kept' r (by omega) other (kept r under before))
        fun both => result' both.2

theorem guarded_emitAll {cs : List Code} (each : ∀ c ∈ cs, Guarded p t c) (settled : ∀ c ∈ cs, Settled t c)
    (start next : Nat) (known : Nat → Prop) (places : p.Places start (emitAll cs start next).1)
    (behind : ∀ known' : Nat → Prop, (∀ r < next, known r → known' r) →
      (∀ r ∈ (emitAll cs start next).2.1, known' r) →
      p.Safe t (start + (emitAll cs start next).1.length) known') : p.Safe t start known := by
  induction cs generalizing start next known with
  | nil => exact behind known (fun _ _ before => before) fun r member => absurd member List.not_mem_nil
  | cons c rest ih =>
    have up := c.next_le_emit start (next + 1) next
    simp only [emitAll, places_append, List.length_append, ← Nat.add_assoc] at places behind
    refine (each c List.mem_cons_self).operand places.1 fun known' kept result => ?_
    refine ih (fun c member => each c (List.mem_cons_of_mem _ member))
      (fun c member => settled c (List.mem_cons_of_mem _ member)) _ _ known' places.2
      fun known'' kept' results => ?_
    refine behind known'' (fun r under before => kept' r (by omega) (kept r under before)) fun r member => ?_
    rcases List.mem_cons.mp member with same | member
    · exact same ▸ kept' next (by omega) (result (settled c List.mem_cons_self))
    · exact results r member

theorem Guarded.withAll {c : Code} {cs : List Code} (each : ∀ c ∈ cs, Guarded p t c)
    (settled : ∀ c ∈ cs, Settled t c) (instr : Nat → List Nat → Instr)
    (layout : ∀ start next dst, c.emit start next dst =
      let (code, regs, free) := emitAll cs start next
      (code ++ [instr dst regs], free))
    (computes : ∀ dst rs, (instr dst rs).Computes dst rs) : Guarded p t c := by
  intro start next dst known places below accepts
  rw [layout] at places accepts
  simp only [places_append, places_singleton] at places
  simp only [List.length_append, List.length_singleton, ← Nat.add_assoc] at accepts
  refine guarded_emitAll each settled start next known places.1 fun known' kept results => ?_
  exact accepts.computes places.2 (computes _ _) (fun r member _ => results r member) kept

/-- Disciplined code is safe wherever it stands. -/
theorem Disciplined.guarded {c : Code} (disciplined : c.Disciplined t) : Guarded p t c := by
  induction disciplined with
  | nullHandle =>
    exact Guarded.ofLeaf .loadNull (fun _ _ _ => rfl) (fun _ => rfl) (fun _ _ => rfl) (fun _ => rfl)
      fun _ _ _ asked => nomatch asked
  | @const value =>
    exact Guarded.ofLeaf (.loadConst · value) (fun _ _ _ => rfl) (fun _ => rfl) (fun _ _ => rfl) (fun _ => rfl)
      fun _ _ _ asked => nomatch asked
  | @param name =>
    exact Guarded.ofLeaf (.loadParam · name) (fun _ _ _ => rfl) (fun _ => rfl) (fun _ _ => rfl) (fun _ => rfl)
      fun _ settled _ asked => Option.some.inj asked ▸ settled
  | @binding name =>
    exact Guarded.ofLeaf (.loadBinding · name) (fun _ _ _ => rfl) (fun _ => rfl) (fun _ _ => rfl) (fun _ => rfl)
      fun _ settled _ asked => Option.some.inj asked ▸ settled
  | box settled _ ih =>
    exact ih.withOperand .box (fun _ _ _ => rfl) (fun _ _ => ⟨rfl, rfl, rfl, fun _ => rfl⟩) fun _ _ _ => settled
  | @await provider point settled _ ih =>
    exact ih.withOperand (.await · · point) (fun _ _ _ => rfl) (fun _ _ => ⟨rfl, rfl, rfl, fun _ => rfl⟩)
      fun _ _ needed => settled (needed rfl)
  | resolve settled _ ih =>
    exact ih.withOperand .resolve (fun _ _ _ => rfl) (fun _ _ => ⟨rfl, rfl, rfl, fun _ => rfl⟩)
      fun _ _ _ => settled
  | firstPresent settled _ _ ihLeft ihRight => exact guarded_firstPresent settled ihLeft ihRight
  | ternary settled _ _ _ ihCondition ihYes ihNo => exact guarded_ternary settled ihCondition ihYes ihNo
  | truthy settled _ ih =>
    exact ih.withOperand .truthy (fun _ _ _ => rfl) (fun _ _ => ⟨rfl, rfl, rfl, fun _ => rfl⟩) fun _ _ _ => settled
  | @binary op _ _ settledLeft settledRight _ _ ihLeft ihRight =>
    exact ihLeft.withOperands ihRight (.binary · op) (fun _ _ _ => rfl)
      (fun _ _ _ => ⟨rfl, rfl, rfl, fun _ => rfl⟩) settledLeft settledRight
  | @unary op _ settled _ ih =>
    exact ih.withOperand (.unary · op) (fun _ _ _ => rfl) (fun _ _ => ⟨rfl, rfl, rfl, fun _ => rfl⟩)
      fun _ _ _ => settled
  | @field _ name safe settled _ ih =>
    exact ih.withOperand (.field · · name safe) (fun _ _ _ => rfl) (fun _ _ => ⟨rfl, rfl, rfl, fun _ => rfl⟩)
      fun _ _ _ => settled
  | @index _ _ safe settledBase settledKey _ _ ihBase ihKey =>
    exact ihBase.withOperands ihKey (.index · · · safe) (fun _ _ _ => rfl)
      (fun _ _ _ => ⟨rfl, rfl, rfl, fun _ => rfl⟩) settledBase settledKey
  | list settled _ ih =>
    exact Guarded.withAll ih settled .list (fun _ _ _ => rfl) fun _ _ => ⟨rfl, rfl, rfl, fun _ => rfl⟩
  | @call name _ settled _ ih =>
    exact Guarded.withAll ih settled (.call · name) (fun _ _ _ => rfl) fun _ _ => ⟨rfl, rfl, rfl, fun _ => rfl⟩

end Code

/-- The program of disciplined code is safe from its first instruction on. -/
theorem Program.assemble_safe {t : Regime} {c : TypedCode} (disciplined : c.code.Disciplined t)
    (result : t.result → c.code.Settled t) : (assemble c).Safe t 0 fun _ => False := by
  have guarded : c.code.Guarded (assemble c) t := disciplined.guarded
  refine guarded 0 1 0 _ ?_ Nat.one_pos fun known _ known0 => ?_
  · intro i instr found
    rw [Nat.zero_add]
    exact found
  · refine .behind ?_ fun demanded => known0 (result demanded)
    exact List.getElem?_eq_none (Nat.le_of_eq (Nat.zero_add _).symm)

end LazyExpr
