import ShiftReduce.Automaton.Listing
import ShiftReduce.Lookahead.Listing
import ShiftReduce.Table.Build
import ShiftReduce.Table.Listing

/-!
# Generating the tables of a grammar

A generation holds everything that is computed from a grammar in a mode: the automaton, the
lookahead sets if the mode needs them, and the table. Conflicts do not stop it; they stand in the
table.

On request the steps of the generation are logged.
-/

namespace ShiftReduce

/-- Which steps of a generation are logged. -/
structure LogOptions where
  grammar : Bool
  table : Bool
  lookahead : Bool
  /-- The visits of the construction of the automaton. -/
  construction : Bool
  stateIndex : Bool
  deriving DecidableEq, Repr

def LogOptions.none : LogOptions :=
  ⟨false, false, false, false, false⟩

/-- What is computed from a grammar. -/
structure Generation where
  mode : Mode
  grammar : Grammar
  automaton : Automaton
  table : Table
  /-- The lookahead sets, if they were computed. -/
  lookahead : Option Lookahead

namespace Generation

/-- The log of the construction of the automaton. -/
def constructionLog (log : LogOptions) (c : Construction) : Except Missing Text := do
  let index ← if log.stateIndex then c.index.listing c.automaton.states else .ok []
  return (if log.construction then c.progressListing else []) ++ index

/-- Generates the table of a grammar, and the log of it. -/
def ofGrammar (g : Grammar) (mode : Mode) (log : LogOptions) :
    Except Missing (Generation × Text) := do
  let construction ← Construction.ofGrammar g
  let constructed ← constructionLog log construction
  let lookahead := if mode = .slr1 then some (Lookahead.ofGrammar g) else none
  let table ← Table.build g construction.automaton mode lookahead
  let text : Text :=
    (if log.grammar then g.listing else []) ++ constructed ++
      (if log.lookahead then (lookahead.map Lookahead.listing).getD [] else []) ++
      (if log.table then table.listing g else [])
  return (⟨mode, g, construction.automaton, table, lookahead⟩, text)

/-- Whether the grammar belongs to the class that the mode names. -/
def isValid (gen : Generation) : Bool :=
  gen.table.isValid

/-- The items of a state in text. -/
def stateLabels (gen : Generation) (n : Nat) : Except Missing (List Text) := do
  let items ← gen.automaton.state n
  items.toList.mapM gen.grammar.itemText

end Generation

end ShiftReduce
