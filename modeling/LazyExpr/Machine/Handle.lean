import LazyExpr.Machine.Operation
import LazyExpr.Value.Diagnostic

namespace LazyExpr

/-- A cell is filled at most once. Its effects are output that comes before its value wherever the cell
itself is rendered. -/
structure Cell where
  value : Option Value := none
  effects : List String := []

/-- The cells of the host by their numbers. A number that was never used stands for a pending cell. -/
structure Store where
  cell : Nat → Cell

def Store.empty : Store := ⟨fun _ => {}⟩

def Store.set (store : Store) (id : Nat) (cell : Cell) : Store :=
  ⟨fun i => if i = id then cell else store.cell i⟩

/-- A handle to a value that may not be there yet: the shared null, a value wrapped for itself, or one of
the cells of the host. Two handles with one number share their cell. -/
inductive Handle
  | null
  | boxed (value : Value)
  | cell (id : Nat)
  deriving Inhabited

namespace Handle

def value? (store : Store) : Handle → Option Value
  | null => some .null
  | boxed value => some value
  | cell id => (store.cell id).value

def effects (store : Store) : Handle → List String
  | null | boxed _ => []
  | cell id => (store.cell id).effects

def isReady (store : Store) (h : Handle) : Bool := (h.value? store).isSome

/-- The value, which has to be there. -/
def resolve (store : Store) (h : Handle) : Outcome Value :=
  match h.value? store with
  | some value => .ok value
  | none => .error .notReady

/-- The handle itself unless its value is nullish. -/
def unlessNullish (store : Store) (h : Handle) : Outcome (Option Handle) := do
  let value ← h.resolve store
  pure (if value.isNullish then none else some h)

/-- Whether two handles share one cell, so that completing one completes the other. What is wrapped for
itself is shared with nobody. -/
def sharesCell : Handle → Handle → Bool
  | null, null => true
  | cell a, cell b => a == b
  | _, _ => false

/-- Fills the cell of a pending handle. -/
def complete (store : Store) (h : Handle) (value : Value) : Outcome Store :=
  match h with
  | cell id =>
    match (store.cell id).value with
    | none => .ok (store.set id { store.cell id with value := some value })
    | some _ => .error .alreadyResolved
  | _ => .error .alreadyResolved

/-- The effects in order, then the text of the value. -/
def render (store : Store) (h : Handle) : Outcome String := do
  let value ← h.resolve store
  pure (String.join (h.effects store) ++ value.text)

def diagnostic (store : Store) (h : Handle) : String :=
  let value := match h.value? store with
    | some value => value.diagnostic
    | none => "<pending>"
  "LazyValue \x7b value: " ++ value ++ ", effects: " ++ toString (h.effects store).length ++ " \x7d"

end Handle

/-- What a register holds and what a run results in: a plain value or a handle. -/
inductive Slot
  | value (v : Value)
  | handle (h : Handle)
  deriving Inhabited

namespace Slot

/-- The plain value, taken out of a handle that is ready. -/
def plain (store : Store) : Slot → Outcome Value
  | value v => .ok v
  | handle h => h.resolve store

def toHandle : Slot → Handle
  | value v => .boxed v
  | handle h => h

/-- The handle that is waited for, if it is not ready. -/
def pending? (store : Store) : Slot → Option Handle
  | value _ => none
  | handle h => if h.isReady store then none else some h

def render (store : Store) : Slot → Outcome String
  | value v => .ok v.text
  | handle h => h.render store

/-- Whether there is something other than a nullish value in the slot. -/
def isPresent (store : Store) : Slot → Outcome Bool
  | value v => .ok !v.isNullish
  | handle h => do
    let found ← h.unlessNullish store
    pure found.isSome

end Slot

end LazyExpr
