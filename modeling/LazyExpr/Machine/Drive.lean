import LazyExpr.Machine.Frame

namespace LazyExpr

/-- What whoever drives a frame can change between runs: the store, the flag that cancels, and notes of
their own. -/
structure World (σ : Type) where
  store : Store
  cancelled : Bool := false
  notes : σ

/-- Told of a suspension point and of the handle that is waited for, a driver completes that handle, or
fails. -/
abbrev Driver (σ : Type) := Nat → Handle → World σ → Outcome Unit × World σ

/-- The end of a drive. -/
structure Arrival (σ : Type) where
  result : Outcome Slot
  world : World σ
  log : Log

/-- Runs the frame, hands each detachment to the driver and goes on, at most `fuel` times. -/
def driveFor {σ : Type} (p : Program) (o : Options) (host : Host) (driver : Driver σ) :
    Nat → Frame → Log → World σ → Arrival σ
  | 0, f, log, world => ⟨.error (.tooManyInstructions f.steps), world, log⟩
  | fuel + 1, f, log, world =>
    let finish := f.run p o ⟨host, world.store, world.cancelled⟩ log
    match finish.result with
    | .error failure => ⟨.error failure, world, finish.log⟩
    | .ok (.done slot) => ⟨.ok slot, world, finish.log⟩
    | .ok (.detached point awaiting) =>
      match driver point awaiting world with
      | (.error failure, world) => ⟨.error failure, world, finish.log⟩
      | (.ok (), world) =>
        if awaiting.isReady world.store then driveFor p o host driver fuel finish.frame finish.log world
        else ⟨.error (.stillPending point), world, finish.log⟩

/-- Runs a program to its end. The driver has to complete the handle of each suspension point at which the
frame is detached. -/
def drive {σ : Type} (p : Program) (o : Options) (host : Host) (driver : Driver σ) (world : World σ) :
    Arrival σ :=
  driveFor p o host driver (Frame.patience + p.resumePoints.length + 1) (Frame.fresh p) [] world

end LazyExpr
