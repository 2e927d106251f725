import ShiftReduce.Automaton
import ShiftReduce.Lookahead
import ShiftReduce.Table

/-!
# Filling a table from the automaton

The items of a state are taken in order. The finished goal production accepts on the end mark, any
other finished production is reduced, and an item that scans a terminal shifts it along the
transition. A production is reduced once per state, however many of its items are finished.

LR(0) and SLR(1) tables differ in the lookaheads of a reduction: every column of the table, or
FOLLOW of the left-hand side.
-/

namespace ShiftReduce.Table

/-- Reduces by a production on all given lookaheads. -/
def insertReduction (t : Table) (n rule : Nat) (lookaheads : List Symbol) : Except Missing Table :=
  lookaheads.foldlM (fun t lookahead => t.insertAction n lookahead (.reduce rule)) t

/-- Enters what an item of state `n` calls for. `reduced` lists the productions that this state has
reduced already. -/
def insertItem (g : Grammar) (a : Automaton) (reduceOn : Production → List Symbol) (n : Nat)
    (acc : Table × List Nat) (i : Item) : Except Missing (Table × List Nat) := do
  let (t, reduced) := acc
  if g.isAccepting i then
    return (← t.insertAction n Symbol.endMark .accept, reduced)
  let p ← g.rule i.rule
  match p.rhs[i.marker]? with
  | none =>
    if reduced.contains i.rule then return (t, reduced)
    return (← t.insertReduction n i.rule (reduceOn p), i.rule :: reduced)
  | some symbol =>
    if g.isTerminal symbol then
      match a.target? n symbol with
      | none => throw (.transition n symbol)
      | some target => return (← t.insertAction n symbol (.shift target), reduced)
    else return (t, reduced)

/-- Enters the items of state `n`. -/
def insertState (g : Grammar) (a : Automaton) (reduceOn : Production → List Symbol) (t : Table)
    (n : Nat) (items : ItemSet) : Except Missing Table :=
  (·.1) <$> items.toList.foldlM (insertItem g a reduceOn n) (t, [])

/-- Enters a transition on a non-terminal. -/
def insertTransition (g : Grammar) (t : Table) (edge : Transition) : Except Missing Table :=
  if g.isNonTerminal edge.symbol then t.setGoto edge.source edge.symbol edge.target else .ok t

/-- The lookaheads on which each production is reduced. -/
def reductionLookaheads (g : Grammar) (mode : Mode) (lookahead : Option Lookahead) :
    Except Missing (Production → List Symbol) :=
  match mode, lookahead with
  | .lr0, _ =>
    let columns := g.actionColumns
    .ok fun _ => columns
  | .slr1, some l => .ok fun p => (l.follow.of p.lhs).toList
  | .slr1, none => .error .followSets

/-- The table of an automaton. -/
def build (g : Grammar) (a : Automaton) (mode : Mode) (lookahead : Option Lookahead) :
    Except Missing Table := do
  let reduceOn ← reductionLookaheads g mode lookahead
  let t ← a.states.toList.zipIdx.foldlM
    (fun t (items, n) => insertState g a reduceOn t n items) (empty mode a.states.size)
  a.transitions.toList.foldlM (insertTransition g) t

end ShiftReduce.Table
