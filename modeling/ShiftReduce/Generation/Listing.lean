import ShiftReduce.Generation

/-!
# Listing of a generation

The full listing has the grammar, the lookahead sets if there are any, the states with their items,
cells and conflicts, the transitions, the table, and the verdict on the grammar.
-/

namespace ShiftReduce.Generation

/-- An item of a state. -/
def itemLine (g : Grammar) (i : Item) : Except Missing Text := do
  let item ← g.itemText i
  return Text.line ("  (" ++ Text.ofNat i.rule ++ ") " ++ item)

/-- A state with its conflicts, its items and its cells. -/
def stateListing (gen : Generation) (n : Nat) (items : ItemSet) : Except Missing Text := do
  let lines ← items.toList.mapM (itemLine gen.grammar)
  let cells ← gen.table.rowListing n
  let heading : Text := "state " ++ Text.ofNat n ++ "\n\n  [config: " ++ Text.ofNat items.size ++
    "]\n\n"
  return gen.table.rowConflictListing n ++ heading ++ lines.flatten ++ Text.ofString "\n" ++
    cells ++ Text.ofString "\n\n"

def stateBlock (gen : Generation) : Except Missing Text := do
  let states ← gen.automaton.states.toList.zipIdx.mapM fun (items, n) => gen.stateListing n items
  let none : Text := if gen.automaton.states.isEmpty then "(empty)\n" else ""
  return Text.ofString "\n\n" ++ states.flatten ++ none ++ Text.ofString "\n"

def transitionBlock (gen : Generation) : Text :=
  Text.line ("Transitions (" ++ Text.ofNat gen.automaton.transitions.size ++ "):") ++
    gen.automaton.transitions.toList.flatMap
      (fun t => Text.line ("  " ++ Text.ofNat t.source ++ " --" ++ t.symbol ++ "--> " ++
        Text.ofNat t.target)) ++
    "\n"

/-- A counted list of symbols in one line. -/
def symbolLine (heading : Text) (symbols : List Symbol) : Text :=
  Text.line (heading ++ " (" ++ Text.ofNat symbols.length ++ "): " ++ Text.join ", " symbols)

/-- Whether the grammar belongs to the class that the mode names. -/
def verdict (gen : Generation) : Text :=
  Text.line ("Grammar is " ++ (if gen.isValid then "" else "not ") ++ gen.mode.toText ++ ".")

/-- Everything, the states only if `showStates`. -/
def listing (gen : Generation) (showStates : Bool) : Except Missing Text := do
  let g := gen.grammar
  let states ← if showStates then gen.stateBlock else .ok []
  return Text.line ("Mode: " ++ gen.mode.toText) ++ g.listing ++
    symbolLine "Terminals" g.actionColumns ++
    symbolLine "Non-terminals" g.nonTerminals.toList ++
    (gen.lookahead.map Lookahead.listing).getD [] ++ states ++ gen.transitionBlock ++
    gen.table.listing g ++ Text.ofString "\n" ++ gen.table.conflictListing ++ gen.verdict

end ShiftReduce.Generation
