import LazyExpr.Lowering.Code
import LazyExpr.Tree.Expr

namespace LazyExpr

/-- Induction over expressions, with one hypothesis for all items of a list at once. -/
@[elab_as_elim, induction_eliminator]
theorem Expr.inductionOn {motive : Expr → Prop}
    (null : ∀ span, motive (.null span))
    (literal : ∀ span value, motive (.literal span value))
    (list : ∀ span items, (∀ e ∈ items, motive e) → motive (.list span items))
    (ref : ∀ span scope name, motive (.ref span scope name))
    (field : ∀ span base name safe, motive base → motive (.field span base name safe))
    (index : ∀ span base key safe, motive base → motive key → motive (.index span base key safe))
    (coalesce : ∀ span left right, motive left → motive right → motive (.coalesce span left right))
    (choose : ∀ span condition yes no, motive condition → motive yes → motive no →
      motive (.choose span condition yes no))
    (binary : ∀ span op left right, motive left → motive right → motive (.binary span op left right))
    (unary : ∀ span op operand, motive operand → motive (.unary span op operand))
    (call : ∀ span name args, (∀ e ∈ args, motive e) → motive (.call span name args))
    (e : Expr) : motive e :=
  @Expr.rec motive (fun es => ∀ e ∈ es, motive e) null literal list ref field index coalesce choose binary
    unary call (fun _ member => nomatch member)
    (fun _ _ first others => List.forall_mem_cons.mpr ⟨first, others⟩) e

/-- Induction over code, with one hypothesis for all operands of a list or of a call at once. -/
@[elab_as_elim, induction_eliminator]
theorem Code.inductionOn {motive : Code → Prop}
    (nullHandle : motive .nullHandle)
    (const : ∀ value, motive (.const value))
    (param : ∀ name, motive (.param name))
    (binding : ∀ name, motive (.binding name))
    (box : ∀ inner, motive inner → motive (.box inner))
    (await : ∀ provider point, motive provider → motive (.await provider point))
    (resolve : ∀ inner, motive inner → motive (.resolve inner))
    (firstPresent : ∀ left right, motive left → motive right → motive (.firstPresent left right))
    (ternary : ∀ condition yes no, motive condition → motive yes → motive no →
      motive (.ternary condition yes no))
    (truthy : ∀ inner, motive inner → motive (.truthy inner))
    (binary : ∀ op left right, motive left → motive right → motive (.binary op left right))
    (unary : ∀ op operand, motive operand → motive (.unary op operand))
    (field : ∀ base name safe, motive base → motive (.field base name safe))
    (index : ∀ base key safe, motive base → motive key → motive (.index base key safe))
    (list : ∀ items, (∀ c ∈ items, motive c) → motive (.list items))
    (call : ∀ name args, (∀ c ∈ args, motive c) → motive (.call name args))
    (c : Code) : motive c :=
  @Code.rec motive (fun cs => ∀ c ∈ cs, motive c) nullHandle const param binding box await resolve
    firstPresent ternary truthy binary unary field index list call (fun _ member => nomatch member)
    (fun _ _ first others => List.forall_mem_cons.mpr ⟨first, others⟩) c

end LazyExpr
