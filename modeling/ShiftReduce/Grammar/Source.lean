import ShiftReduce.Grammar

/-!
# The text format of grammars

A grammar text has one rule to a line:

```
# comment
E -> E + T | T
T -> id | ε
```

Blank lines, lines that start with `#` and lines without an arrow are skipped. Alternatives are
divided by `|` and symbols by blanks. A part in single or double quotes belongs to one symbol,
quotes included, whatever it holds. An alternative that is empty, or just `ε` or `epsilon`, is the
empty right-hand side: its bytes decide, without the blanks at their ends.

A left-hand side may have several lines. Its productions are numbered together, at the place of the
first of them.

The right-hand side is read in one pass over its bytes. The pass knows the quote that is open, the
symbol that is being read, and the symbols and the bytes of the alternative so far.
-/

namespace ShiftReduce

namespace Source

/-! ### Right-hand sides -/

/-- A symbol that has been read, as a list: nothing if no byte of it was read. -/
def word (pending : Text) : List Symbol :=
  if pending = [] then [] else [pending]

/-- The right-hand side that an alternative stands for, by its bytes and by the symbols read from
them. -/
def alternative (raw : Text) (symbols : List Symbol) : List Symbol :=
  let alt := raw.trim
  if alt = [] ∨ alt = Symbol.emptyMark ∨ alt = ("epsilon" : Text) then [] else symbols

/-- Whether the byte opens a quoted part: a single or a double quote. -/
def isQuote (b : UInt8) : Bool :=
  b == 39 || b == 34

/-- Reads the alternatives of a right-hand side. `quote` is the open quote, `pending` the symbol
being read, `symbols` what the alternative holds before it, and `raw` are all its bytes so far.
Fails with the symbol being read if the bytes end inside a quoted part. -/
def scanAlternatives (quote : Option UInt8) (pending : Text) (symbols : List Symbol) (raw : Text) :
    Text → Except Text (List (List Symbol))
  | [] =>
    match quote with
    | some _ => .error pending
    | none => .ok [alternative raw (symbols ++ word pending)]
  | b :: rest =>
    match quote with
    | some q =>
      scanAlternatives (if b = q then none else some q) (pending ++ [b]) symbols (raw ++ [b]) rest
    | none =>
      if b = '|'.toUInt8 then
        (alternative raw (symbols ++ word pending) :: ·) <$> scanAlternatives none [] [] [] rest
      else if Text.isBlank b then
        scanAlternatives none [] (symbols ++ word pending) (raw ++ [b]) rest
      else
        scanAlternatives (if isQuote b then some b else none) (pending ++ [b]) symbols (raw ++ [b])
          rest

/-! ### Lines -/

/-- The productions of a line. -/
def readLine (number : UInt32) (line : Text) : Except GrammarError (List Production) :=
  let content := line.trim
  if content.head? = some '#'.toUInt8 then .ok []
  else
    match content.splitArrow? with
    | none => .ok []
    | some (left, right) =>
      let lhs := left.trim
      if lhs = [] then .error (.missingLhs ⟨number, 0⟩)
      else if lhs.any Text.isBlank then .error (.compoundLhs lhs ⟨number, 0⟩)
      else
        match scanAlternatives none [] [] [] right with
        | .ok alternatives => .ok (alternatives.map (⟨lhs, ·⟩))
        | .error symbol =>
          .error (.openQuote symbol ⟨number, .ofNat (line.leadingBlanks + content.length)⟩)

/-- The productions of the lines, the first of which has the given number. The first faulty line
decides the error. -/
def readLines : UInt32 → List Text → Except GrammarError (List Production)
  | _, [] => .ok []
  | number, line :: lines => do
    let here ← readLine number line
    let rest ← readLines (number + 1) lines
    return here ++ rest

/-- The productions of each left-hand side together, in the order the left-hand sides first
appear. -/
def groupByLhs (rules : List Production) : List Production :=
  (rules.map (·.lhs)).eraseDups.flatMap fun lhs => rules.filter (·.lhs == lhs)

/-- The productions of a grammar text. -/
def readRules (text : Text) : Except GrammarError (List Production) := do
  let rules ← readLines 1 text.lines
  if rules = [] then .error .empty
  return groupByLhs rules

end Source

/-- The grammar of a grammar text. -/
def Grammar.read (text : Text) : Except GrammarError Grammar := do
  ofRules (← Source.readRules text)

end ShiftReduce
