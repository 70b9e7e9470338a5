import LazyExpr.Proofs.Lowering.Rules

namespace LazyExpr

/-- The requests for code that lowering answers. -/
inductive Entry
  | compile
  | streaming
  | avoiding
  | inMode (mode : Mode) (detacher : Bool)
  | print
  | binding
  | eager
  | eagerWithoutSuspension

/-- The code that a request gives for an expression, unless it is declined or refused. Suspension points are
numbered from the next free number on. -/
def Entry.lower (setting : Setting) (e : Expr) : Entry → StateM Nat (Option TypedCode)
  | compile => some <$> setting.compile e
  | streaming => setting.lower? .preserveStreaming e
  | avoiding => setting.lower? .avoidSuspension e
  | inMode mode detacher =>
    match mode.withDetacher detacher with
    | .ok mode => setting.lower? mode e
    | .error _ => pure none
  | print => (fun plan => some plan.code) <$> setting.lowerPrint e
  | binding => some <$> setting.lowerBinding e
  | eager => some <$> setting.eager e
  | eagerWithoutSuspension => pure (setting.eagerWithoutSuspension? e)

namespace Setting

variable {setting : Setting}

theorem eagerAll_codes {items : List Expr}
    (each : ∀ e ∈ items, ∀ next, setting.EagerCode e (setting.eager e next).1)
    (next : Nat) : ∃ codes, (setting.eagerAllWith waitFor items next).1 = codes.map TypedCode.code ∧
      List.Forall₂ setting.EagerCode items codes := by
  induction items generalizing next with
  | nil => exact ⟨[], rfl, .nil⟩
  | cons e rest ih =>
    obtain ⟨codes, same, derived⟩ := ih (fun e member => each e (List.mem_cons_of_mem _ member))
      (setting.eager e next).2
    refine ⟨(setting.eager e next).1 :: codes, ?_, .cons (each e List.mem_cons_self next) derived⟩
    rw [List.map_cons, ← same]
    rfl

theorem eager_code (e : Expr) (next : Nat) : setting.EagerCode e (setting.eager e next).1 := by
  induction e generalizing next with
  | null => exact .null
  | literal => exact .literal
  | list span items ih =>
    obtain ⟨codes, same, derived⟩ := eagerAll_codes ih next
    have code : (setting.eager (.list span items) next).1 =
      ⟨.list (setting.eagerAllWith waitFor items next).1, .data .list⟩ := rfl
    rw [code, same]
    exact .list derived
  | ref span scope name =>
    have code : setting.eager (.ref span scope name) next =
      setting.readWith waitFor (.ref span scope name) (setting.layout.provider scope name) next := rfl
    rw [code, readWith]
    split
    · rename_i waits
      simp only [Bool.and_eq_true, beq_iff_eq] at waits
      have awaited : waitFor (setting.layout.provider scope name) next =
          (⟨.await (setting.layout.provider scope name).code next, .deferred⟩, next + 1) := by
        simp only [waitFor, waits.1, Storage.isPresent, Bool.false_eq_true, if_false]
      change setting.EagerCode _ (TypedCode.resolved (waitFor _ next).1)
      rw [awaited]
      exact .readAwaited waits.1
    · rename_i settled
      exact .read (Bool.eq_false_iff.mpr settled)
  | field span base name safe ih => exact .field (ih next)
  | index span base key safe ihBase ihKey => exact .index (ihBase next) (ihKey _)
  | coalesce span left right ihLeft ihRight => exact .coalesce (ihLeft next) (ihRight _)
  | choose span condition yes no ihCondition ihYes ihNo =>
    exact .choose (ihCondition next) (ihYes _) (ihNo _)
  | binary span op left right ihLeft ihRight => exact .binary (ihLeft next) (ihRight _)
  | unary span op operand ih => exact .unary (ih next)
  | call span name args ih =>
    obtain ⟨codes, same, derived⟩ := eagerAll_codes ih next
    have code : (setting.eager (.call span name args) next).1 =
      ⟨.call name (setting.eagerAllWith waitFor args next).1, .data .any⟩ := rfl
    rw [code, same]
    exact .call derived

section Independence

variable {m n : Type → Type} [Monad m] [Monad n]

/-- A relation between computations that holds of a sequence if it holds of its parts. -/
structure Sequential (R : ∀ α : Type, m α → n α → Prop) : Prop where
  pure : ∀ {α : Type} (a : α), R α (pure a) (pure a)
  bind : ∀ {α β : Type} {x : m α} {y : n α} {k : α → m β} {l : α → n β}, R α x y →
    (∀ a, R β (k a) (l a)) → R β (x >>= k) (y >>= l)

variable {R : ∀ α : Type, m α → n α → Prop} {wait : TypedCode → m TypedCode} {wait' : TypedCode → n TypedCode}

theorem eagerAllWith_relates (sequential : Sequential R) {items : List Expr}
    (each : ∀ e ∈ items, R _ (setting.eagerWith wait e) (setting.eagerWith wait' e)) :
    R _ (setting.eagerAllWith wait items) (setting.eagerAllWith wait' items) := by
  induction items with
  | nil =>
    rw [eagerAllWith, eagerAllWith]
    exact sequential.pure _
  | cons e rest ih =>
    rw [eagerAllWith, eagerAllWith]
    refine sequential.bind (each e List.mem_cons_self) fun first => ?_
    exact sequential.bind (ih fun e member => each e (List.mem_cons_of_mem _ member)) fun others =>
      sequential.pure _

/-- Two ways to make eager code are related as what they do about variables that may be pending. -/
theorem eagerWith_relates (sequential : Sequential R)
    (waits : ∀ provider, provider.storage = .deferred → R _ (wait provider) (wait' provider)) (e : Expr) :
    R _ (setting.eagerWith wait e) (setting.eagerWith wait' e) := by
  induction e with
  | null | literal =>
    rw [eagerWith, eagerWith]
    exact sequential.pure _
  | list span items ih | call span name items ih =>
    rw [eagerWith, eagerWith]
    exact sequential.bind (eagerAllWith_relates sequential ih) fun codes => sequential.pure _
  | ref span scope name =>
    rw [eagerWith, eagerWith, readWith, readWith]
    split
    · rename_i pending
      have deferred := beq_iff_eq.mp (Bool.and_eq_true_iff.mp pending).1
      exact sequential.bind (waits _ deferred) fun handle => sequential.pure _
    · exact sequential.pure _
  | field span base name safe ih | unary span op base ih =>
    rw [eagerWith, eagerWith]
    exact sequential.bind ih fun b => sequential.pure _
  | index span left right safe ihLeft ihRight | coalesce span left right ihLeft ihRight
  | binary span op left right ihLeft ihRight =>
    rw [eagerWith, eagerWith]
    exact sequential.bind ihLeft fun l => sequential.bind ihRight fun r => sequential.pure _
  | choose span condition yes no ihCondition ihYes ihNo =>
    rw [eagerWith, eagerWith]
    exact sequential.bind ihCondition fun c => sequential.bind ihYes fun y => sequential.bind ihNo fun n =>
      sequential.pure _

/-- Code that has been found without suspension is found whatever is done about variables that may be pending. -/
theorem eagerWith_eq_pure [LawfulMonad m] (wait : TypedCode → m TypedCode) {e : Expr} {c : TypedCode}
    (found : setting.eagerWithoutSuspension? e = some c) : setting.eagerWith wait e = pure c := by
  have sequential : Sequential fun α (x : m α) (y : Option α) => ∀ a, y = some a → x = pure a := by
    refine ⟨fun a b same => ?_, fun first rest b found => ?_⟩
    · rw [Option.some.inj same]
    · obtain ⟨a, atFirst, atRest⟩ := Option.bind_eq_some_iff.mp found
      rw [first a atFirst, pure_bind]
      exact rest a b atRest
  exact eagerWith_relates sequential (fun provider _ c impossible => by cases impossible) e c found

end Independence

theorem eagerWithoutSuspension_code {e : Expr} {c : TypedCode}
    (found : setting.eagerWithoutSuspension? e = some c) : setting.EagerCode e c := by
  have same : setting.eager e 0 = (c, 0) := congrFun (eagerWith_eq_pure waitFor found) 0
  have derived := setting.eager_code e 0
  rw [same] at derived
  exact derived

/-- The answer to a request for a handle: its code, or that nothing in the expression offers one. -/
inductive Answered (setting : Setting) (mode : Mode) (e : Expr) : Option TypedCode → Prop
  | code {c} : setting.HandleCode mode e c → Answered setting mode e (some c)
  | declined : (mode.allowsSuspension → setting.offersHandle e = false) → Answered setting mode e none

variable {mode : Mode}

/-- What comes of asking for wrapped eager code: a value that takes no suspension, one that is waited for, or
nothing. -/
inductive Generic (setting : Setting) (mode : Mode) (e : Expr) (next : Nat) : Option TypedCode × Nat → Prop
  | ready {c} : mode.allowsBoxing → setting.eagerWithoutSuspension? e = some c →
      Generic setting mode e next (some c.boxed, next)
  | waits : mode.allowsBoxing → mode.allowsSuspension → setting.eagerWithoutSuspension? e = none →
      Generic setting mode e next (some (setting.eager e next).1.boxed, (setting.eager e next).2)
  | declined : (mode.allowsBoxing → mode.allowsSuspension = false ∧ setting.eagerWithoutSuspension? e = none) →
      Generic setting mode e next (none, next)

theorem lowerGeneric_generic (e : Expr) (next : Nat) :
    setting.Generic mode e next (setting.lowerGeneric? mode e next) := by
  unfold lowerGeneric?
  by_cases boxing : mode.allowsBoxing
  · rw [if_pos boxing]
    cases found : setting.eagerWithoutSuspension? e with
    | some code => exact .ready boxing found
    | none =>
      by_cases suspension : mode.allowsSuspension
      · rw [if_pos suspension]
        exact .waits boxing suspension found
      · rw [if_neg suspension]
        exact .declined fun _ => ⟨Bool.eq_false_iff.mpr suspension, found⟩
  · rw [if_neg boxing]
    exact .declined fun permitted => absurd permitted boxing

theorem lowerGeneric_answered {e : Expr} (offers : mode.allowsSuspension → setting.offersHandle e = false)
    (next : Nat) : setting.Answered mode e (setting.lowerGeneric? mode e next).1 := by
  have generic : setting.Generic mode e next _ := lowerGeneric_generic e next
  generalize setting.lowerGeneric? mode e next = answer at generic ⊢
  cases generic with
  | ready _ found => exact .code (.boxed (eagerWithoutSuspension_code found) offers)
  | waits _ _ _ => exact .code (.boxed (setting.eager_code e next) offers)
  | declined _ => exact .declined offers

theorem orEager_code {e : Expr} {answer : Option TypedCode} (answered : setting.Answered mode e answer)
    (next : Nat) : setting.HandleCode mode e (setting.orEager e answer next).1 := by
  cases answered with
  | code derived => exact derived
  | declined offers => exact .boxed (setting.eager_code e next) offers

theorem awaited_code {left : Expr} {answer : Option TypedCode} (answered : setting.Answered mode left answer)
    (next : Nat) :
    ∃ l, setting.HandleCode mode left l ∧ setting.Awaited left l (setting.awaited left answer next).1 := by
  cases answered with
  | @code c derived =>
    refine ⟨c, derived, ?_⟩
    by_cases waits : setting.mayWait left
    · simp only [awaited, waits, if_true]
      by_cases present : c.storage.isPresent
      · simp only [waitFor, present, if_true]
        exact .present present
      · simp only [waitFor, present, if_false, Bool.false_eq_true]
        exact .waits (Bool.eq_false_iff.mpr present)
    · simp only [awaited, waits, if_false, Bool.false_eq_true]
      exact .unneeded (Bool.eq_false_iff.mpr waits)
  | declined offers =>
    have derived := setting.eager_code left next
    exact ⟨_, .boxed derived offers, .present derived.boxed_isPresent⟩

/-- Where suspension is permitted, both operands of `??` are lowered on their own before anything is done with
them. -/
theorem lower_coalesce (span : Span) (left right : Expr) (suspension : mode.allowsSuspension) (next : Nat) :
    ∃ a b middle after,
      setting.lower? mode left next = (a, middle) ∧ setting.lower? mode right middle = (b, after) ∧
      setting.lower? mode (.coalesce span left right) next =
        (if a.isNone && b.isNone then setting.lowerGeneric? mode (.coalesce span left right) else do
          let rightCode ← setting.orEager right b
          let leftCode ← setting.awaited left a
          pure (some (leftCode.firstPresent rightCode))) after := by
  refine ⟨_, _, _, _, rfl, rfl, ?_⟩
  rw [lower?, if_pos suspension]
  rfl

/-- So are both branches of `?:`. -/
theorem lower_choose (span : Span) (condition yes no : Expr) (suspension : mode.allowsSuspension) (next : Nat) :
    ∃ a b middle after, setting.lower? mode yes next = (a, middle) ∧ setting.lower? mode no middle = (b, after) ∧
      setting.lower? mode (.choose span condition yes no) next =
        (if a.isNone && b.isNone then pure none else do
          let conditionCode ← setting.eager condition
          let yesCode ← setting.orEager yes a
          let noCode ← setting.orEager no b
          pure (some (TypedCode.ternary conditionCode yesCode noCode)) : StateM Nat (Option TypedCode)) after := by
  refine ⟨_, _, _, _, rfl, rfl, ?_⟩
  rw [lower?, if_pos suspension]
  rfl

theorem coalesce_answered {left right : Expr} (span : Span) {next : Nat} (suspension : mode.allowsSuspension)
    (answeredLeft : ∀ next, setting.Answered mode left (setting.lower? mode left next).1)
    (answeredRight : ∀ next, setting.Answered mode right (setting.lower? mode right next).1) :
    setting.Answered mode (.coalesce span left right) (setting.lower? mode (.coalesce span left right) next).1 := by
  obtain ⟨a, b, middle, after, first, second, whole⟩ := setting.lower_coalesce span left right suspension next
  have atLeft := answeredLeft next
  have atRight := answeredRight middle
  rw [first] at atLeft
  rw [second] at atRight
  rw [whole]
  by_cases neither : a.isNone && b.isNone
  · rw [if_pos neither]
    refine lowerGeneric_answered (fun permitted => ?_) _
    cases atLeft with
    | code _ => cases neither
    | declined offersLeft =>
      cases atRight with
      | code _ => cases neither
      | declined offersRight =>
        rw [offersHandle, offersLeft permitted, offersRight permitted, Bool.or_self]
  · rw [if_neg neither]
    obtain ⟨l, derivedLeft, awaited⟩ := awaited_code atLeft (setting.orEager right b _).2
    exact .code (.coalesce derivedLeft (orEager_code atRight _) awaited)

theorem choose_answered {yes no : Expr} (span : Span) (condition : Expr) {next : Nat}
    (suspension : mode.allowsSuspension)
    (answeredYes : ∀ next, setting.Answered mode yes (setting.lower? mode yes next).1)
    (answeredNo : ∀ next, setting.Answered mode no (setting.lower? mode no next).1) :
    setting.Answered mode (.choose span condition yes no)
      (setting.lower? mode (.choose span condition yes no) next).1 := by
  obtain ⟨a, b, middle, after, first, second, whole⟩ := setting.lower_choose span condition yes no suspension next
  have atYes := answeredYes next
  have atNo := answeredNo middle
  rw [first] at atYes
  rw [second] at atNo
  rw [whole]
  by_cases neither : a.isNone && b.isNone
  · rw [if_pos neither]
    refine .declined fun permitted => ?_
    cases atYes with
    | code _ => cases neither
    | declined offersYes =>
      cases atNo with
      | code _ => cases neither
      | declined offersNo => rw [offersHandle, offersYes permitted, offersNo permitted, Bool.or_self]
  · rw [if_neg neither]
    exact .code (.choose (setting.eager_code condition _) (orEager_code atYes _) (orEager_code atNo _))

theorem ref_answered (span : Span) (scope : Scope) (name : String) (next : Nat) :
    setting.Answered mode (.ref span scope name) (setting.lower? mode (.ref span scope name) next).1 := by
  unfold lower?
  generalize found : setting.layout.provider scope name = provider
  by_cases raw : provider.storage.isRaw
  · simp only [raw, if_true]
    have offers : setting.offersHandle (.ref span scope name) = false := by
      simp only [offersHandle, found, raw, Bool.not_true]
    by_cases boxing : mode.allowsBoxing
    · simp only [boxing, if_true]
      have bare : provider.resolved = provider ∧ (provider.storage == .deferred) = false := by
        obtain ⟨code, storage⟩ := provider
        cases storage <;> first | exact ⟨rfl, rfl⟩ | cases raw
      have derived : setting.EagerCode (.ref span scope name) provider := by
        have read := @EagerCode.read setting span scope name (by rw [found, bare.2, Bool.false_and])
        rwa [found, bare.1] at read
      exact .code (.boxed derived fun _ => offers)
    · simp only [boxing]
      exact .declined fun _ => offers
  · simp only [raw]
    exact .code (found ▸ .provider (found ▸ Bool.eq_false_iff.mpr raw))

/-- Lowering in a mode follows the rules for that mode, whatever numbers it gives to suspension points. -/
theorem lower_answered (e : Expr) (next : Nat) : setting.Answered mode e (setting.lower? mode e next).1 := by
  induction e generalizing next with
  | null => exact .code .null
  | ref span scope name => exact ref_answered span scope name next
  | coalesce span left right ihLeft ihRight =>
    by_cases suspension : mode.allowsSuspension
    · exact coalesce_answered span suspension ihLeft ihRight
    · rw [lower?, if_neg suspension]
      exact lowerGeneric_answered (fun permitted => absurd permitted suspension) next
  | choose span condition yes no ihCondition ihYes ihNo =>
    by_cases suspension : mode.allowsSuspension
    · exact choose_answered span condition suspension ihYes ihNo
    · rw [lower?, if_neg suspension]
      exact lowerGeneric_answered (fun permitted => absurd permitted suspension) next
  | _ => exact lowerGeneric_answered (fun _ => rfl) next

end Setting

/-- The mode in which a request makes a handle for an expression. Where it asks for a computed value, or comes down
to one, there is none. -/
def Entry.handleMode? (setting : Setting) (e : Expr) (next : Nat) : Entry → Option Mode
  | compile => some .general
  | streaming => some .preserveStreaming
  | avoiding | binding => some .avoidSuspension
  | inMode mode _ => some mode
  | print => if (setting.lowerPrint e next).1.isStream then some .preserveStreaming else none
  | eager | eagerWithoutSuspension => none

/-- The code follows the rules for handles in a mode, or those for computed values. -/
def Setting.Obeys (setting : Setting) (e : Expr) (c : TypedCode) : Option Mode → Prop
  | some mode => setting.HandleCode mode e c
  | none => setting.EagerCode e c

/-- What any request gives is the code of a handle in its mode, or that of a computed value. -/
theorem Entry.lower_obeys {setting : Setting} {entry : Entry} {e : Expr} {next : Nat} {c : TypedCode}
    (lowered : (entry.lower setting e next).1 = some c) : setting.Obeys e c (entry.handleMode? setting e next) := by
  have answered : ∀ {mode : Mode}, (setting.lower? mode e next).1 = some c → setting.HandleCode mode e c := by
    intro mode found
    have derived : setting.Answered mode e _ := setting.lower_answered e next
    rw [found] at derived
    cases derived with
    | code derived => exact derived
  cases entry with
  | compile =>
    cases Option.some.inj lowered
    exact Setting.orEager_code (Setting.lower_answered e next) _
  | streaming => exact answered lowered
  | avoiding => exact answered lowered
  | inMode mode detacher =>
    cases granted : mode.withDetacher detacher with
    | ok permitted =>
      have same : mode = permitted := by
        unfold Mode.withDetacher at granted
        split at granted
        · cases granted
        · exact Except.ok.inj granted
      simp only [lower, granted] at lowered
      exact same ▸ answered lowered
    | error refusal =>
      simp only [lower, granted] at lowered
      cases lowered
  | print =>
    rcases found : setting.lower? .preserveStreaming e next with ⟨_ | code, next'⟩
    · simp only [lower, handleMode?, Setting.lowerPrint, bind, StateT.bind, found, Functor.map,
        StateT.map] at lowered ⊢
      cases Option.some.inj lowered
      exact setting.eager_code e next'
    · simp only [lower, handleMode?, Setting.lowerPrint, bind, StateT.bind, found, Functor.map,
        StateT.map] at lowered ⊢
      cases Option.some.inj lowered
      exact answered (congrArg Prod.fst found)
  | binding =>
    cases Option.some.inj lowered
    exact Setting.orEager_code (Setting.lower_answered e next) _
  | eager =>
    cases Option.some.inj lowered
    exact setting.eager_code e next
  | eagerWithoutSuspension => exact Setting.eagerWithoutSuspension_code lowered

theorem Entry.lower_derived {setting : Setting} {entry : Entry} {e : Expr} {next : Nat} {c : TypedCode}
    (lowered : (entry.lower setting e next).1 = some c) :
    setting.EagerCode e c ∨ ∃ mode, setting.HandleCode mode e c := by
  have obeys := lower_obeys lowered
  cases asked : entry.handleMode? setting e next with
  | none =>
    rw [asked] at obeys
    exact .inl obeys
  | some mode =>
    rw [asked] at obeys
    exact .inr ⟨mode, obeys⟩

end LazyExpr
