/-!
# Saturation

Closures, vanishing symbols and the FIRST and FOLLOW sets are all least sets closed under a rule.
Each is found the same way: apply the rule in rounds, until a round changes nothing.

`saturate step n x` makes at most `n` rounds. Where every effective round adds one of at most `n`
possible members, the rounds suffice, and the result is a fixed point of `step`.
-/

namespace ShiftReduce

/-- Applies `step` until it changes nothing, at most `n` times. -/
def saturate {α : Type} [DecidableEq α] (step : α → α) : Nat → α → α
  | 0, x => x
  | n + 1, x =>
    let y := step x
    if y = x then x else saturate step n y

end ShiftReduce
