import ShiftReduce.Lookahead
import ShiftReduce.Grammar.Listing

/-!
# Listings of lookahead sets

A set is written `{a, b}`, its members in byte order.
-/

namespace ShiftReduce

def SymbolSet.toText (s : SymbolSet) : Text :=
  "\x7b" ++ Text.join ", " s.toList ++ "\x7d"

/-- The sets of a family under a heading, each after `name` and its symbol. -/
def SymbolSets.block (heading name : Text) (sets : SymbolSets) : Text :=
  heading.line ++
    sets.toList.flatMap
      (fun (symbol, s) => ("  " ++ name ++ "(" ++ symbol ++ ") = " ++ SymbolSet.toText s).line) ++
    ("" : Text).line

def Lookahead.listing (l : Lookahead) : Text :=
  "\n--First/Follow--\n" ++ Grammar.symbolBlock "Vanish symbols" l.vanishing.toList ++
    SymbolSets.block "FIRST sets:" "FIRST" l.first ++
    SymbolSets.block "FOLLOW sets:" "FOLLOW" l.follow

end ShiftReduce
