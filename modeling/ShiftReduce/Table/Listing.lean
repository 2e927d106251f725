import ShiftReduce.Grammar.Listing
import ShiftReduce.Table

/-!
# Listings of a table

The table itself is divided by tabs: a column for the state, one for every terminal and the end
mark, one for every non-terminal but the goal symbol. Conflicts are listed with the shift/reduce
conflicts first.
-/

namespace ShiftReduce.Table

/-! ### Rows -/

/-- An action as a line of its state. The error action has none. -/
def actionLine (symbol : Symbol) : Action → Text
  | .shift state => Text.line ("  " ++ symbol ++ " shift " ++ Text.ofNat state)
  | .accept => Text.line ("  " ++ symbol ++ " Accept")
  | .reduce rule => Text.line ("  " ++ symbol ++ " " ++ (Action.reduce rule).toText)
  | .error => []

/-- The cells of a row, one to a line. -/
def rowListing (t : Table) (n : Nat) : Except Missing Text := do
  let row ← t.row n
  return row.actions.toList.flatMap (fun (symbol, action) => actionLine symbol action) ++
    row.gotos.toList.flatMap fun (symbol, target) =>
      Text.line ("  " ++ symbol ++ " goto " ++ Text.ofNat target)

/-- A row of the whole table. -/
def rowLine (t : Table) (actions gotos : List Symbol) (n : Nat) : Text :=
  let cells : List Text :=
    actions.map (fun s => ((t.action? n s).map Action.toText).getD []) ++
      gotos.map fun s => ((t.goto? n s).map fun target => "g" ++ Text.ofNat target).getD []
  Text.line ((Text.ofNat n :: cells).flatMap (· ++ Text.ofString "\t"))

/-- How to read the cells. -/
def note : Text :=
  "Note: \n" ++
    "1. si means shift and stack state i\n" ++
    "2. ri means reduce by production numbered i\n" ++
    "3. accept means accept\n" ++
    "4. gi means go to state i\n" ++
    "5. empty means error\n"

/-- The whole table, with the columns of the grammar. -/
def listing (t : Table) (g : Grammar) : Text :=
  let actions := g.actionColumns
  let gotos := g.nonTerminals.toList.filter (· != Symbol.goal)
  let heading : Text :=
    (("State" : Text) :: (actions ++ gotos)).flatMap (· ++ Text.ofString "\t")
  "\n--Parsing Table (" ++ t.mode.toText ++ ")--\n" ++ heading.line ++
    (List.range t.rows.size).flatMap (t.rowLine actions gotos) ++ note

/-! ### Conflicts -/

/-- The conflicts of a row, one to a line. -/
def rowConflictListing (t : Table) (n : Nat) : Text :=
  (t.rowConflicts .shiftReduce n ++ t.rowConflicts .reduceReduce n).flatMap (·.toText.line)

def counted (count : Nat) (kind : Text) : Text :=
  Text.ofNat count ++ " " ++ kind ++ " conflict" ++ (if count = 1 then "" else "s")

/-- The number of conflicts of a row; nothing if there is none. -/
def rowConflictCount (t : Table) (n : Nat) : Text :=
  let shiftReduce := (t.rowConflicts .shiftReduce n).length
  let reduceReduce := (t.rowConflicts .reduceReduce n).length
  let counts :=
    (if shiftReduce = 0 then [] else [counted shiftReduce "shift/reduce"]) ++
      (if reduceReduce = 0 then [] else [counted reduceReduce "reduce/reduce"])
  if counts = [] then []
  else Text.line ("  state " ++ Text.ofNat n ++ ": " ++ Text.join ", " counts)

/-- The numbers of conflicts of the table and of its rows; nothing for a table without any. -/
def conflictListing (t : Table) : Text :=
  if t.isValid then []
  else
    "Conflicts:  " ++ Text.ofNat (t.conflictsOf .shiftReduce).length ++ " shift/reduce, " ++
      Text.ofNat (t.conflictsOf .reduceReduce).length ++ " reduce/reduce\n\n" ++
      (List.range t.rows.size).flatMap t.rowConflictCount ++ "\n"

/-- The numbers of conflicts after the name of the grammar; nothing for a table without any. -/
def conflictSummary (t : Table) (name : Text) : Text :=
  if t.isValid then []
  else
    let shiftReduce := (t.conflictsOf .shiftReduce).length
    let reduceReduce := (t.conflictsOf .reduceReduce).length
    let counts : List Text :=
      (if shiftReduce = 0 then [] else [Text.ofNat shiftReduce ++ " shift/reduce"]) ++
        (if reduceReduce = 0 then [] else [Text.ofNat reduceReduce ++ " reduce/reduce"])
    Text.line (name ++ ": conflicts: " ++ Text.join ", " counts)

end ShiftReduce.Table
