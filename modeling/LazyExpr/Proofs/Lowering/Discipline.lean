import LazyExpr.Proofs.Lowering.Derivation
import LazyExpr.Proofs.Lowering.Meaning
import LazyExpr.Proofs.Machine.Knowledge

namespace LazyExpr

namespace Expr

mutual

/-- The references that occur in an expression. -/
def references : Expr → List (Scope × String)
  | null _ | literal _ _ => []
  | ref _ scope name => [(scope, name)]
  | list _ items => referencesOfAll items
  | field _ base _ _ => references base
  | index _ base key _ => references base ++ references key
  | coalesce _ left right => references left ++ references right
  | choose _ condition yes no => references condition ++ references yes ++ references no
  | binary _ _ left right => references left ++ references right
  | unary _ _ operand => references operand
  | call _ _ args => referencesOfAll args

def referencesOfAll : List Expr → List (Scope × String)
  | [] => []
  | e :: rest => references e ++ referencesOfAll rest

end

end Expr

/-- A variable whose slot is declared not to be a handle that may be pending, or that is among the resolved
names. -/
def Layout.Settles (layout : Layout) (resolved : List String) (scope : Scope) (name : String) : Prop :=
  (layout.provider scope name).storage ≠ .deferred ∨
    Expr.requiresSuspension resolved (.ref .synthetic scope name) = false

theorem Layout.not_settles_param {layout : Layout} {resolved : List String} {name : String}
    (unresolved : resolved.contains name = false) : ¬ layout.Settles resolved .param name := by
  rintro (present | analysed)
  · exact present rfl
  · simp only [Expr.requiresSuspension, unresolved, Bool.not_false] at analysed
    cases analysed

/-- The lookups that have to give slots that are ready: those of the references of the expression whose storage
or resolved name says so. All others may give handles that are pending. -/
def Expr.Promised (layout : Layout) (resolved : List String) (e : Expr) (event : Event) : Prop :=
  ∃ v ∈ e.references, event = v.1.lookup v.2 ∧ layout.Settles resolved v.1 v.2

/-- The regime trusts all lookups that are promised for an expression. -/
def Regime.Trusts (t : Regime) (layout : Layout) (resolved : List String) (e : Expr) : Prop :=
  ∀ v ∈ e.references, layout.Settles resolved v.1 v.2 → t.trusted (v.1.lookup v.2)

namespace Setting

variable {layout : Layout} {resolved : List String} {t : Regime}

theorem provider_settled {scope : Scope} {name : String} (trusted : t.trusted (scope.lookup name)) :
    (layout.provider scope name).code.Settled t := by
  cases scope <;> exact trusted

theorem provider_disciplined (scope : Scope) (name : String) : (layout.provider scope name).code.Disciplined t := by
  cases scope with
  | param => exact .param
  | binding | range => exact .binding

theorem resolved_disciplined {c : TypedCode} (settled : c.code.Settled t) (disciplined : c.code.Disciplined t) :
    c.resolved.code.Settled t ∧ c.resolved.code.Disciplined t := by
  unfold TypedCode.resolved
  split
  · exact ⟨trivial, .resolve settled disciplined⟩
  · exact ⟨settled, disciplined⟩

theorem boxed_disciplined {c : TypedCode} (settled : c.code.Settled t) (disciplined : c.code.Disciplined t) :
    c.boxed.code.Settled t ∧ c.boxed.code.Disciplined t := by
  unfold TypedCode.boxed
  split
  · exact ⟨trivial, .box settled disciplined⟩
  · exact ⟨settled, disciplined⟩

theorem intoBranch_disciplined {c : TypedCode} (settled : c.code.Settled t) (disciplined : c.code.Disciplined t) :
    c.intoBranch.code.Settled t ∧ c.intoBranch.code.Disciplined t := by
  unfold TypedCode.intoBranch
  split
  · exact ⟨settled, disciplined⟩
  · exact ⟨trivial, .truthy settled disciplined⟩

theorem codes_disciplined {items : List Expr} {codes : List TypedCode}
    (each : List.Forall₂ (fun e c => t.Trusts layout resolved e → c.code.Settled t ∧ c.code.Disciplined t) items
      codes)
    (trusts : ∀ v ∈ Expr.referencesOfAll items, layout.Settles resolved v.1 v.2 → t.trusted (v.1.lookup v.2)) :
    (∀ c ∈ codes.map TypedCode.code, c.Settled t) ∧ ∀ c ∈ codes.map TypedCode.code, c.Disciplined t := by
  induction each with
  | nil => exact ⟨fun c member => (nomatch member), fun c member => (nomatch member)⟩
  | cons first _ ih =>
    obtain ⟨trustsFirst, trustsRest⟩ := List.forall_mem_append.mp trusts
    obtain ⟨settled, disciplined⟩ := first trustsFirst
    obtain ⟨settledRest, disciplinedRest⟩ := ih trustsRest
    exact ⟨List.forall_mem_cons.mpr ⟨settled, settledRest⟩, List.forall_mem_cons.mpr ⟨disciplined, disciplinedRest⟩⟩

/-- The slot of eager code is settled whatever the host does, and nothing is done to others but waiting. -/
theorem EagerCode.disciplined (patient : ¬ t.awaits) {e : Expr} {c : TypedCode}
    (derived : (Setting.static layout resolved).EagerCode e c) (trusts : t.Trusts layout resolved e) :
    c.code.Settled t ∧ c.code.Disciplined t := by
  induction derived with
  | null span | literal span value => exact ⟨trivial, .const⟩
  | list span items codes _ ih =>
    obtain ⟨settled, disciplined⟩ := codes_disciplined (ih.imp fun e c h => h.2) trusts
    exact ⟨trivial, .list settled disciplined⟩
  | read span scope name settled =>
    refine resolved_disciplined (provider_settled (trusts _ (List.mem_singleton_self _) ?_))
      (provider_disciplined _ _)
    rcases Bool.and_eq_false_iff.mp settled with present | resolved
    · exact .inl fun deferred => (nomatch (beq_iff_eq.mpr deferred).symm.trans present)
    · exact .inr resolved
  | readAwaited span scope name point deferred =>
    have awaited : Code.Disciplined t (.await ((static layout resolved).layout.provider scope name).code point) :=
      .await (fun needed => absurd needed patient) (provider_disciplined scope name)
    exact resolved_disciplined trivial awaited
  | field span base name safe b _ ih =>
    obtain ⟨settled, disciplined⟩ := ih trusts
    exact ⟨trivial, .field settled disciplined⟩
  | index span base key safe b k _ _ ihBase ihKey =>
    obtain ⟨trustsBase, trustsKey⟩ := List.forall_mem_append.mp trusts
    exact ⟨trivial, .index (ihBase trustsBase).1 (ihKey trustsKey).1 (ihBase trustsBase).2 (ihKey trustsKey).2⟩
  | coalesce span left right l r _ _ ihLeft ihRight =>
    obtain ⟨trustsLeft, trustsRight⟩ := List.forall_mem_append.mp trusts
    obtain ⟨settled, disciplined⟩ := ihLeft trustsLeft
    obtain ⟨settled', disciplined'⟩ := ihRight trustsRight
    exact resolved_disciplined ⟨settled, settled'⟩ (.firstPresent settled disciplined disciplined')
  | choose span condition yes no c y n _ _ _ ihCondition ihYes ihNo =>
    obtain ⟨trustsBoth, trustsNo⟩ := List.forall_mem_append.mp trusts
    obtain ⟨trustsCondition, trustsYes⟩ := List.forall_mem_append.mp trustsBoth
    obtain ⟨settled, disciplined⟩ := ihCondition trustsCondition
    obtain ⟨branch, disciplinedBranch⟩ := intoBranch_disciplined settled disciplined
    obtain ⟨settledYes, disciplinedYes⟩ := ihYes trustsYes
    obtain ⟨settledNo, disciplinedNo⟩ := ihNo trustsNo
    exact resolved_disciplined ⟨settledYes, settledNo⟩
      (.ternary branch disciplinedBranch disciplinedYes disciplinedNo)
  | binary span op left right l r _ _ ihLeft ihRight =>
    obtain ⟨trustsLeft, trustsRight⟩ := List.forall_mem_append.mp trusts
    exact ⟨trivial,
      .binary (ihLeft trustsLeft).1 (ihRight trustsRight).1 (ihLeft trustsLeft).2 (ihRight trustsRight).2⟩
  | unary span op operand c _ ih =>
    exact ⟨trivial, .unary (ih trusts).1 (ih trusts).2⟩
  | call span name args codes _ ih =>
    obtain ⟨settled, disciplined⟩ := codes_disciplined (ih.imp fun e c h => h.2) trusts
    exact ⟨trivial, .call settled disciplined⟩

/-- The storage of code that yields a handle is that of a handle. -/
theorem HandleCode.storage_isHandle {setting : Setting} {mode : Mode} {e : Expr} {c : TypedCode}
    (derived : setting.HandleCode mode e c) : c.storage.isHandle := by
  induction derived with
  | null => rfl
  | @provider span scope name handle =>
    cases stored : (setting.layout.provider scope name).storage <;> simp_all [Storage.isRaw, Storage.isHandle]
  | boxed eager _ =>
    have present := eager.boxed_isPresent
    generalize TypedCode.storage _ = storage at present
    cases storage <;> first | rfl | cases present
  | coalesce _ _ _ =>
    simp only [TypedCode.firstPresent]
    split <;> rfl
  | choose _ _ _ ihYes _ =>
    simp only [TypedCode.ternary, Storage.merge]
    split
    · exact ihYes
    · split <;> rfl

theorem Awaited.storage_eq {setting : Setting} {left : Expr} {l l' : TypedCode}
    (awaited : setting.Awaited left l l') :
    l'.storage = l.storage := by
  cases awaited <;> rfl

/-- The left operand of a lazy choice is settled, because of its storage, by the analysis or by waiting. -/
theorem Awaited.disciplined (patient : ¬ t.awaits) {left : Expr} {l l' : TypedCode}
    (awaited : (Setting.static layout resolved).Awaited left l l') (disciplined : l.code.Disciplined t)
    (settled : l.storage.isPresent = true ∨ left.requiresSuspension resolved = false → l.code.Settled t) :
    l'.code.Settled t ∧ l'.code.Disciplined t := by
  cases awaited with
  | unneeded none => exact ⟨settled (.inr none), disciplined⟩
  | present present => exact ⟨settled (.inl present), disciplined⟩
  | waits _ => exact ⟨trivial, .await (fun needed => absurd needed patient) disciplined⟩

theorem merge_isPresent {a b : Storage} (present : (a.merge b).isPresent = true) :
    a.isPresent = true ∧ b.isPresent = true := by
  unfold Storage.merge at present
  split at present
  · rename_i same
    exact ⟨present, same ▸ present⟩
  · split at present
    · rename_i both
      exact Bool.and_eq_true_iff.mp both
    · cases present

/-- Code that yields a handle is disciplined. Its slot is settled if its storage says that the value is present,
and if the expression does not require suspension. -/
theorem HandleCode.disciplined (patient : ¬ t.awaits) {mode : Mode} {e : Expr} {c : TypedCode}
    (derived : (Setting.static layout resolved).HandleCode mode e c) (trusts : t.Trusts layout resolved e) :
    c.code.Disciplined t ∧
      (c.storage.isPresent = true ∨ e.requiresSuspension resolved = false → c.code.Settled t) := by
  induction derived with
  | null => exact ⟨.nullHandle, fun _ => trivial⟩
  | @provider span scope name handle =>
    refine ⟨provider_disciplined scope name,
      fun settles => provider_settled (trusts _ (List.mem_singleton_self _) ?_)⟩
    refine settles.imp (fun present deferred => ?_) id
    have stored : ((static layout resolved).layout.provider scope name).storage = .deferred := deferred
    rw [stored] at present
    cases present
  | boxed eager _ =>
    obtain ⟨settled, disciplined⟩ := eager.disciplined patient trusts
    obtain ⟨settled', disciplined'⟩ := boxed_disciplined settled disciplined
    exact ⟨disciplined', fun _ => settled'⟩
  | @coalesce span left right l l' r derivedLeft derivedRight awaited ihLeft ihRight =>
    obtain ⟨trustsLeft, trustsRight⟩ := List.forall_mem_append.mp trusts
    obtain ⟨disciplinedLeft, settlesLeft⟩ := ihLeft trustsLeft
    obtain ⟨disciplinedRight, settlesRight⟩ := ihRight trustsRight
    obtain ⟨settled, disciplined⟩ := awaited.disciplined patient disciplinedLeft settlesLeft
    refine ⟨.firstPresent settled disciplined disciplinedRight, fun settles => ⟨settled, settlesRight (.inr ?_)⟩⟩
    rcases settles with present | none
    · have handles : l'.storage.isHandle && r.storage.isHandle := by
        rw [awaited.storage_eq, derivedLeft.storage_isHandle, derivedRight.storage_isHandle]
        rfl
      simp only [TypedCode.firstPresent, handles, if_true] at present
      cases present
    · exact (Bool.or_eq_false_iff.mp none).2
  | @choose span condition yes no c y n eager derivedYes derivedNo ihYes ihNo =>
    obtain ⟨trustsBoth, trustsNo⟩ := List.forall_mem_append.mp trusts
    obtain ⟨trustsCondition, trustsYes⟩ := List.forall_mem_append.mp trustsBoth
    obtain ⟨settled, disciplined⟩ := eager.disciplined patient trustsCondition
    obtain ⟨branch, disciplinedBranch⟩ := intoBranch_disciplined settled disciplined
    obtain ⟨disciplinedYes, settlesYes⟩ := ihYes trustsYes
    obtain ⟨disciplinedNo, settlesNo⟩ := ihNo trustsNo
    refine ⟨.ternary branch disciplinedBranch disciplinedYes disciplinedNo, fun settles => ?_⟩
    rcases settles with present | none
    · obtain ⟨presentYes, presentNo⟩ := merge_isPresent present
      exact ⟨settlesYes (.inl presentYes), settlesNo (.inl presentNo)⟩
    · obtain ⟨noneBoth, noneNo⟩ := Bool.or_eq_false_iff.mp none
      exact ⟨settlesYes (.inr (Bool.or_eq_false_iff.mp noneBoth).2), settlesNo (.inr noneNo)⟩

end Setting

/-- Whatever code is asked for is disciplined if all is trusted that is promised for its expression. -/
theorem Entry.lower_disciplined {layout : Layout} {resolved : List String} {t : Regime} (patient : ¬ t.awaits)
    {entry : Entry} {e : Expr} {next : Nat} {c : TypedCode}
    (lowered : (entry.lower (.static layout resolved) e next).1 = some c) (trusts : t.Trusts layout resolved e) :
    c.code.Disciplined t := by
  rcases Entry.lower_derived lowered with derived | ⟨mode, derived⟩
  · exact (derived.disciplined patient trusts).2
  · exact (derived.disciplined patient trusts).1

end LazyExpr
