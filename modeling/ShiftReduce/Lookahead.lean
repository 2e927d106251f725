import ShiftReduce.Grammar
import ShiftReduce.Saturation

/-!
# Vanishing symbols, FIRST and FOLLOW

A symbol vanishes if it derives the empty string. FIRST of a string of symbols holds the terminals
that begin the strings it derives, and the empty mark if it derives the empty string. FOLLOW of a
non-terminal holds the terminals that can stand right after it, and the end mark if nothing need
follow it.

Each of the three grows in rounds over the productions, until a round adds nothing. The vanishing
symbols start with those of the empty productions, without which there are none. Every effective
round adds a member, which bounds the rounds: by the non-terminals for the vanishing symbols, and by
the non-terminals times the possible members for the two families of sets.
-/

namespace ShiftReduce

/-- A family of symbol sets. -/
abbrev SymbolSets := SymbolMap SymbolSet

namespace SymbolSets

def of (sets : SymbolSets) (symbol : Symbol) : SymbolSet :=
  sets.getD symbol ∅

/-- The family with more members in the set of a symbol. -/
def grow (sets : SymbolSets) (symbol : Symbol) (members : SymbolSet) : SymbolSets :=
  sets.insert symbol (sets.of symbol ∪ members)

/-- The family of a function on the listed symbols. -/
def ofSymbols (symbols : List Symbol) (f : Symbol → SymbolSet) : SymbolSets :=
  .ofList (symbols.map fun s => (s, f s))

/-- FIRST of a string of symbols, for given FIRST sets of the symbols. A set with the empty mark
lets the next symbol through. -/
def firstOfSequence (first : SymbolSets) : List Symbol → SymbolSet
  | [] => {Symbol.emptyMark}
  | s :: rest =>
    let here := first.of s
    if here.contains Symbol.emptyMark then
      here.erase Symbol.emptyMark ∪ firstOfSequence first rest
    else here

end SymbolSets

namespace Grammar

/-! ### Vanishing symbols -/

/-- The left-hand sides of the empty productions. -/
def vanishStart (g : Grammar) : SymbolSet :=
  g.rules.foldl (fun vanishing p => if p.rhs = [] then vanishing.insert p.lhs else vanishing) ∅

/-- One round over the productions: a left-hand side vanishes if its right-hand side does. -/
def vanishRound (g : Grammar) (vanishing : SymbolSet) : SymbolSet :=
  g.rules.foldl
    (fun vanishing p => if p.rhs.all vanishing.contains then vanishing.insert p.lhs else vanishing)
    vanishing

/-- The symbols that derive the empty string. -/
def vanishing (g : Grammar) : SymbolSet :=
  let start := g.vanishStart
  if start.isEmpty then ∅ else saturate g.vanishRound g.nonTerminals.size start

/-! ### FIRST -/

/-- One round over the productions: FIRST of a right-hand side belongs to its left-hand side. -/
def firstRound (g : Grammar) (first : SymbolSets) : SymbolSets :=
  g.rules.foldl (fun first p => first.grow p.lhs (first.firstOfSequence p.rhs)) first

/-- The number of non-terminals times the number of terminals with one more member. -/
def memberBound (g : Grammar) : Nat :=
  g.nonTerminals.size * (g.terminals.size + 1)

/-- FIRST of every symbol of the grammar. A terminal begins with itself. -/
def firstSets (g : Grammar) : SymbolSets :=
  let terminals := g.terminals
  saturate g.firstRound g.memberBound
    (.ofSymbols (terminals.toList ++ g.nonTerminals.toList)
      fun s => if terminals.contains s then {s} else ∅)

/-! ### FOLLOW -/

/-- Extends FOLLOW of the non-terminals in a tail of a right-hand side: by FIRST of what comes
after, and by FOLLOW of the left-hand side if that can vanish. -/
def followTail (g : Grammar) (first : SymbolSets) (lhs : Symbol) :
    List Symbol → SymbolSets → SymbolSets
  | [], follow => follow
  | s :: rest, follow =>
    let after := first.firstOfSequence rest
    let members :=
      if after.contains Symbol.emptyMark then after.erase Symbol.emptyMark ∪ follow.of lhs
      else after
    g.followTail first lhs rest (if g.isNonTerminal s then follow.grow s members else follow)

/-- One round over the productions. -/
def followRound (g : Grammar) (first follow : SymbolSets) : SymbolSets :=
  g.rules.foldl (fun follow p => g.followTail first p.lhs p.rhs follow) follow

/-- FOLLOW of every non-terminal, for given FIRST sets. The end mark follows the goal symbol. -/
def followSets (g : Grammar) (first : SymbolSets) : SymbolSets :=
  saturate (g.followRound first) g.memberBound
    (.ofSymbols g.nonTerminals.toList
      fun s => if s = Symbol.goal then {Symbol.endMark} else ∅)

end Grammar

/-- What can begin and follow the symbols of a grammar. -/
structure Lookahead where
  vanishing : SymbolSet
  first : SymbolSets
  follow : SymbolSets
  deriving DecidableEq

def Lookahead.ofGrammar (g : Grammar) : Lookahead :=
  let first := g.firstSets
  ⟨g.vanishing, first, g.followSets first⟩

end ShiftReduce
