import Std.Data.ExtTreeSet
import Std.Data.ExtTreeMap
import ShiftReduce.Text

/-!
# Grammar symbols

A symbol is a non-empty text. Three texts are reserved: `$` ends every input, `S'` is the left-hand
side of the goal production, and `ε` stands for the empty string in listings and FIRST sets. None
of them may be a symbol of a declared production.

Sets and maps of symbols list their members in byte order.
-/

namespace ShiftReduce

/-- A grammar symbol, also used for the tokens of an input. -/
abbrev Symbol := Text

/-- A finite set of symbols, listed in byte order. -/
abbrev SymbolSet := Std.ExtTreeSet Symbol

/-- A finite map on symbols, listed in byte order of the symbol. -/
abbrev SymbolMap (β : Type) := Std.ExtTreeMap Symbol β

namespace Symbol

/-- The end of the input. -/
def endMark : Symbol := "$"

/-- The left-hand side of the goal production. -/
def goal : Symbol := "S'"

/-- The empty string, as a member of a FIRST set and as the text of an empty right-hand side. -/
def emptyMark : Symbol := "ε"

/-- Why a text cannot be a symbol of a declared production. -/
inductive Fault where
  | blank
  | endMark
  | goal
  | emptyMark
  deriving DecidableEq, Repr

/-- What is wrong with a symbol, in words. -/
def Fault.message : Fault → Text
  | .blank => "empty symbol"
  | .endMark => "'" ++ Symbol.endMark ++ "' is reserved for the end of input"
  | .goal => "'" ++ Symbol.goal ++ "' is reserved for the augmented start symbol"
  | .emptyMark => "'" ++ Symbol.emptyMark ++ "' must stand alone as an empty alternative"

/-- The fault of a text as a symbol of a declared production, if it has one. -/
def fault? (s : Symbol) : Option Fault :=
  if s = [] then some .blank
  else if s = endMark then some .endMark
  else if s = goal then some .goal
  else if s = emptyMark then some .emptyMark
  else none

end Symbol

end ShiftReduce
