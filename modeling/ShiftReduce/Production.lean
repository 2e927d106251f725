import ShiftReduce.Symbol

/-!
# Productions

A production is written as a rule, `E -> E + T`, or with a marker in its right-hand side,
`E -> E . + T`. An empty right-hand side is written `ε` in a rule, and as nothing around a marker.
-/

namespace ShiftReduce

structure Production where
  lhs : Symbol
  /-- What it expands to; empty for the empty string. -/
  rhs : List Symbol
  deriving DecidableEq, Repr

namespace Production

/-- The left-hand side, an arrow and the given words. -/
def arrow (lhs : Symbol) (words : List Text) : Text :=
  lhs ++ " -> " ++ Text.join " " words

/-- The production as a rule. -/
def toText (p : Production) : Text :=
  arrow p.lhs (if p.rhs = [] then [Symbol.emptyMark] else p.rhs)

/-- The right-hand side with a dot before the symbol at `marker`, or at the end if `marker` is the
length. A marker beyond the end leaves no dot. -/
def dotted (rhs : List Symbol) (marker : Nat) : List Text :=
  if marker ≤ rhs.length then rhs.take marker ++ (("." : Text) :: rhs.drop marker) else rhs

/-- The production with a marker in its right-hand side. -/
def toTextAt (p : Production) (marker : Nat) : Text :=
  arrow p.lhs (dotted p.rhs marker)

end Production

end ShiftReduce
