import ShiftReduce.Grammar

/-!
# Listing of a grammar

The terminals, the non-terminals, the goal symbol and the numbered productions, one to a line.
-/

namespace ShiftReduce

namespace Grammar

/-- A counted list of symbols under a heading, with an empty line after it. -/
def symbolBlock (heading : Text) (symbols : List Symbol) : Text :=
  (heading ++ " (" ++ Text.ofNat symbols.length ++ "): ").line ++
    symbols.flatMap Text.line ++ ("" : Text).line

def ruleBlock (g : Grammar) : Text :=
  ("Rules: " : Text).line ++
    g.rules.zipIdx.flatMap (fun (p, id) => ("(" ++ Text.ofNat id ++ ") " ++ p.toText).line) ++
    ("Number of Rules: " ++ Text.ofNat g.rules.length).line

def listing (g : Grammar) : Text :=
  ("" : Text).line ++ ("--Grammar--" : Text).line ++
    symbolBlock "Terminals" g.terminals.toList ++
    symbolBlock "Non-terminals" g.nonTerminals.toList ++
    ("Goal symbol: " ++ Symbol.goal).line ++ g.ruleBlock ++ ("" : Text).line

end Grammar

end ShiftReduce
