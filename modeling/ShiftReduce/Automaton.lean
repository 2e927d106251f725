import ShiftReduce.Automaton.StateIndex

/-!
# The automaton of item sets

State 0 is the closure of the goal production with its marker at the start. From every state there
is a transition on each symbol that it scans, to the state that is the goto set. States are numbered
in the order in which they are found, and visited in the order of their numbers.

`Construction` is the automaton while it grows, with the index that finds known states.
`Construction.explore` visits one state after the other. Every state is a set of items of the
grammar, and no two are equal, so the visits are bounded by the number of such sets.
-/

namespace ShiftReduce

structure Transition where
  source : Nat
  symbol : Symbol
  target : Nat
  deriving DecidableEq, Repr

/-- States by number, and transitions in the order in which they were found. -/
structure Automaton where
  states : Array ItemSet
  transitions : Array Transition
  deriving DecidableEq

namespace Automaton

def empty : Automaton := ⟨#[], #[]⟩

/-- The items of a state, or the complaint that there is no such state. -/
def state (a : Automaton) (n : Nat) : Except Missing ItemSet :=
  match a.states[n]? with
  | some items => .ok items
  | none => .error (.state n)

/-- Where a state goes on a symbol. -/
def target? (a : Automaton) (source : Nat) (symbol : Symbol) : Option Nat :=
  (a.transitions.find? fun t => t.source == source && t.symbol == symbol).map (·.target)

end Automaton

/-- An automaton under construction. -/
structure Construction where
  automaton : Automaton
  /-- The states that have been found, by bucket. -/
  index : StateIndex
  /-- How many states were known at each visit. -/
  progress : Array Nat

namespace Construction

def empty : Construction := ⟨.empty, .empty, #[]⟩

/-- The number of the state with the given items, which is entered if it is new. -/
def enter (c : Construction) (items : ItemSet) : Except Missing (Nat × Construction) := do
  let fresh := c.automaton.states.size
  let (known, index) ← c.index.search c.automaton.states items fresh
  match known with
  | some n => return (n, { c with index })
  | none =>
    let automaton := { c.automaton with states := c.automaton.states.push items }
    return (fresh, { c with automaton, index })

/-- Adds a transition to the state with the given items. -/
def connect (c : Construction) (source : Nat) (symbol : Symbol) (items : ItemSet) :
    Except Missing Construction := do
  let (target, c) ← c.enter items
  let transitions := c.automaton.transitions.push ⟨source, symbol, target⟩
  return { c with automaton := { c.automaton with transitions } }

/-- Follows every symbol that the state `n` with the given items scans. -/
def visit (g : Grammar) (c : Construction) (n : Nat) (items : ItemSet) :
    Except Missing Construction :=
  (g.scannedSymbols items).foldlM
    (fun c symbol => c.connect n symbol (g.goto items symbol))
    { c with progress := c.progress.push c.automaton.states.size }

/-- Visits the states from number `n` on, at most `fuel` of them. -/
def explore (g : Grammar) : Nat → Nat → Construction → Except Missing Construction
  | 0, _, c => .ok c
  | fuel + 1, n, c =>
    match c.automaton.states[n]? with
    | none => .ok c
    | some items =>
      match visit g c n items with
      | .error e => .error e
      | .ok c => explore g fuel (n + 1) c

/-- The number of items of a grammar: each production has one more than it has symbols. -/
def itemCount (g : Grammar) : Nat :=
  g.rules.foldl (fun sum p => sum + (p.rhs.length + 1)) 0

def initialItems (g : Grammar) : ItemSet :=
  g.closure {⟨0, 0⟩}

def ofGrammar (g : Grammar) : Except Missing Construction := do
  let (_, c) ← empty.enter (initialItems g)
  explore g (Nat.pow 2 (itemCount g) + 1) 0 c

end Construction

def Automaton.ofGrammar (g : Grammar) : Except Missing Automaton :=
  (·.automaton) <$> Construction.ofGrammar g

end ShiftReduce
