namespace LazyExpr

/-- A stretch of source text, from byte `start` up to, but not including, byte `stop`. -/
structure Span where
  start : Nat
  stop : Nat
  deriving DecidableEq, Repr, Inhabited

/-- Trees that were never read from a text carry the empty span at the origin. -/
def Span.synthetic : Span := ⟨0, 0⟩

/-- The least span that covers both. -/
def Span.merge (a b : Span) : Span := ⟨min a.start b.start, max a.stop b.stop⟩

def Span.isSynthetic (s : Span) : Bool := s == .synthetic

/-- Both ends in decimal with two points between them. -/
def Span.text (s : Span) : String := toString s.start ++ ".." ++ toString s.stop

/-- The inclusion of spans: `a` lies inside `b`. -/
def Span.Within (a b : Span) : Prop := b.start ≤ a.start ∧ a.stop ≤ b.stop

theorem Span.within_merge_left (a b : Span) : a.Within (a.merge b) :=
  ⟨Nat.min_le_left _ _, Nat.le_max_left _ _⟩

theorem Span.within_merge_right (a b : Span) : b.Within (a.merge b) :=
  ⟨Nat.min_le_right _ _, Nat.le_max_right _ _⟩

end LazyExpr
