import ShiftReduce.Symbol

/-!
# References that lead nowhere

Productions, states, table rows and tree nodes are referred to by number, and a number may name
nothing. `Missing` says what was asked for. The references that a caller can get wrong carry a
message; an index into a list of states, rows or nodes is plainly out of range.
-/

namespace ShiftReduce

/-- Something that was referred to and does not exist. -/
inductive Missing where
  /-- A production of the grammar. -/
  | rule (id : Nat)
  /-- A transition of the automaton that a shift needs. -/
  | transition (source : Nat) (label : Symbol)
  /-- The FOLLOW sets that an SLR(1) table needs. -/
  | followSets
  /-- A node named as a child. -/
  | child (id : Nat)
  /-- A root for a symbol on the parse stack. -/
  | root
  /-- A state of the automaton. -/
  | state (number : Nat)
  /-- A row of the parsing table. -/
  | row (number : Nat)
  /-- A node of the parse tree. -/
  | node (id : Nat)
  deriving DecidableEq, Repr

namespace Missing

/-- The message of a failed reference. An index out of range has none. -/
def message? : Missing → Option Text
  | .rule id => some ("Invalid production index: " ++ Text.ofNat id)
  | .transition source label =>
    some ("no transition from state " ++ Text.ofNat source ++ " on '" ++ label ++ "'")
  | .followSets => some "generate_parsing_table: SLR(1) tables need FOLLOW sets"
  | .child id => some ("ParseTree::make_node: no node " ++ Text.ofNat id)
  | .root | .state _ | .row _ | .node _ => none

end Missing

end ShiftReduce
