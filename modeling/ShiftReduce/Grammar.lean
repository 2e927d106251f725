import ShiftReduce.Production
import ShiftReduce.Missing

/-!
# Augmented grammars

A grammar is a non-empty list of declared productions without reserved symbols. In front of them
stands the goal production `S' -> start`, where the start symbol is the left-hand side of the first
declaration. The number of a production is its place in that list, so the goal production is number
0 and the declarations are numbered from 1.

A symbol is a non-terminal if it is the left-hand side of some production. All other symbols of
right-hand sides are terminals.

This module provides:

* `Grammar`, whose proof fields say that the list is non-empty and free of reserved symbols;
* `Grammar.ofRules`, which checks a list of productions, and `GrammarError`, which also covers the
  errors of the text format;
* the views of a grammar: `rules`, `start`, `terminals`, `nonTerminals`, `rulesOf`.
-/

namespace ShiftReduce

/-- A place in a grammar text. Both counts are 32 bits wide. -/
structure Position where
  /-- Number of the line, from 1. -/
  line : UInt32
  /-- Number of bytes of the line that were read. -/
  column : UInt32
  deriving DecidableEq, Repr

/-- Why a text or a list of productions is not a grammar. -/
inductive GrammarError where
  | empty
  /-- A symbol of a declared production is empty or reserved. Declarations are counted from 1. -/
  | badSymbol (declaration : Nat) (fault : Symbol.Fault)
  /-- Nothing stands before the arrow. -/
  | missingLhs (place : Position)
  /-- More than one symbol stands before the arrow. -/
  | compoundLhs (lhs : Text) (place : Position)
  /-- The line ends inside a quoted symbol. -/
  | openQuote (symbol : Text) (place : Position)
  deriving DecidableEq, Repr

namespace GrammarError

/-- A message about a place of the grammar text. -/
def located (place : Position) (message : Text) : Text :=
  "[get_grammar]: error [line " ++ Text.ofNat place.line.toNat ++ ", col " ++
    Text.ofNat place.column.toNat ++ "]: " ++ message

def message : GrammarError → Text
  | .empty => "Grammar cannot be empty"
  | .badSymbol declaration fault =>
    "rule " ++ Text.ofNat declaration ++ ": " ++ fault.message
  | .missingLhs place => located place "missing left-hand side"
  | .compoundLhs lhs place => located place ("left-hand side must be a single symbol: " ++ lhs)
  | .openQuote symbol place => located place ("unterminated quote in symbol " ++ symbol)

end GrammarError

/-- The first fault of the symbols of a production, its left-hand side first. -/
def Production.fault? (p : Production) : Option Symbol.Fault :=
  (p.lhs :: p.rhs).findSome? Symbol.fault?

/-- A list of declared productions that can be augmented with a goal production. -/
structure Grammar where
  declared : List Production
  /-- There is a first declaration, which gives the start symbol. -/
  nonempty : declared ≠ []
  /-- No symbol is empty or reserved. -/
  faultless : ∀ p ∈ declared, p.fault? = none

namespace Grammar

/-- The first declaration with a fault, counted from `n`. -/
def firstFault? : Nat → List Production → Option (Nat × Symbol.Fault)
  | _, [] => none
  | n, p :: rules =>
    match p.fault? with
    | some fault => some (n, fault)
    | none => firstFault? (n + 1) rules

/-- A list without a first fault has no fault. -/
theorem faultless_of_firstFault? {n : Nat} {rules : List Production}
    (h : firstFault? n rules = none) : ∀ p ∈ rules, p.fault? = none := by
  induction rules generalizing n with
  | nil => simp
  | cons q rules ih =>
    rw [firstFault?] at h
    split at h
    · simp at h
    · rename_i hq
      intro p hp
      cases List.mem_cons.1 hp with
      | inl hpq => exact hpq ▸ hq
      | inr hpr => exact ih h p hpr

/-- The grammar of a list of productions. -/
def ofRules (rules : List Production) : Except GrammarError Grammar :=
  if nonempty : rules = [] then .error .empty
  else
    match found : firstFault? 1 rules with
    | some (declaration, fault) => .error (.badSymbol declaration fault)
    | none => .ok ⟨rules, nonempty, faultless_of_firstFault? found⟩

/-! ### Productions and their numbers -/

/-- The left-hand side of the first declaration. -/
def start (g : Grammar) : Symbol :=
  (g.declared.head g.nonempty).lhs

def goalRule (g : Grammar) : Production :=
  ⟨Symbol.goal, [g.start]⟩

/-- All productions by number: the goal production, then the declarations. -/
def rules (g : Grammar) : List Production :=
  g.goalRule :: g.declared

def rule? (g : Grammar) (id : Nat) : Option Production :=
  g.rules[id]?

/-- The production with a number, or the complaint that there is none. -/
def rule (g : Grammar) (id : Nat) : Except Missing Production :=
  match g.rule? id with
  | some p => .ok p
  | none => .error (.rule id)

/-- The numbers of the productions with the given left-hand side, in increasing order. -/
def rulesOf (g : Grammar) (symbol : Symbol) : List Nat :=
  (g.rules.zipIdx.filter fun (p, _) => p.lhs == symbol).map (·.2)

/-! ### Symbols -/

/-- The symbols with a production, the goal symbol included. -/
def nonTerminals (g : Grammar) : SymbolSet :=
  .ofList (g.rules.map (·.lhs))

/-- The symbols of right-hand sides without a production. The end mark is not among them. -/
def terminals (g : Grammar) : SymbolSet :=
  let defined := g.nonTerminals
  .ofList ((g.rules.flatMap (·.rhs)).filter fun s => !defined.contains s)

/-- Whether some production expands the symbol. -/
def isNonTerminal (g : Grammar) (symbol : Symbol) : Bool :=
  g.rules.any (·.lhs == symbol)

/-- Whether the symbol can be read from the input: a terminal or the end mark. -/
def isTerminal (g : Grammar) (symbol : Symbol) : Bool :=
  symbol == Symbol.endMark ||
    (!g.isNonTerminal symbol && g.rules.any (·.rhs.contains symbol))

/-- The columns of the action table: the terminals in byte order, then the end mark. -/
def actionColumns (g : Grammar) : List Symbol :=
  g.terminals.toList ++ [Symbol.endMark]

end Grammar

end ShiftReduce
