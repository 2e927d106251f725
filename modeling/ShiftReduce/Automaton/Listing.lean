import ShiftReduce.Automaton
import ShiftReduce.Grammar.Listing

/-!
# Listings of the automaton

A state is listed with its items and the transitions that leave it. An item of the goal production
is followed by the end mark.
-/

namespace ShiftReduce

namespace Automaton

/-- An item of a state. -/
def itemLine (g : Grammar) (i : Item) : Except Missing Text := do
  let item ← g.itemText i
  let tail : Text := if i.rule = 0 then " " ++ Symbol.endMark else []
  return ("  (" ++ Text.ofNat i.rule ++ ") " ++ item ++ tail).line

/-- The transitions that leave a state, with an empty line before the first of them. -/
def exits (a : Automaton) (n : Nat) : Text :=
  let leaving := a.transitions.toList.filter (·.source == n)
  (if leaving.isEmpty then [] else ("" : Text).line) ++
    leaving.flatMap fun t => ("  " ++ t.symbol ++ " : " ++ Text.ofNat t.target).line

/-- A state, its items and its transitions. -/
def stateListing (a : Automaton) (g : Grammar) (n : Nat) : Except Missing Text := do
  let items ← a.state n
  let lines ← items.toList.mapM (itemLine g)
  return ("--state " ++ Text.ofNat n ++ "-- config count:" ++ Text.ofNat items.size).line ++
    lines.flatten ++ a.exits n ++ ("" : Text).line

def listing (a : Automaton) (g : Grammar) : Except Missing Text := do
  let states ← (List.range a.states.size).mapM (a.stateListing g)
  return ("==State Collection: (count=" ++ Text.ofNat a.states.size ++ ")").line ++
    states.flatten ++ (if a.states.isEmpty then ("(empty)" : Text).line else []) ++
    ("" : Text).line

end Automaton

/-- How the number of states grew from visit to visit. -/
def Construction.progressListing (c : Construction) : Text :=
  "\n\n--generate parsing machine--\n" ++
    c.progress.toList.zipIdx.flatMap fun (known, n) =>
      (Text.ofNat known ++ " states, current state is " ++ Text.ofNat n).line

end ShiftReduce
