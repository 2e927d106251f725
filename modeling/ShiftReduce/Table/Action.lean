import ShiftReduce.Symbol

/-!
# Actions and conflicts

A cell of the action table says what to do in a state on a lookahead. Two different actions for one
cell are settled by a fixed policy: accept wins over everything, a shift wins over a reduction, and
of two reductions the first stays. Every such clash is a conflict, with one exception: a second
shift is dropped without one.
-/

namespace ShiftReduce

/-- Which reductions a table allows: on every lookahead, or on FOLLOW of the left-hand side. -/
inductive Mode where
  | lr0
  | slr1
  deriving DecidableEq, Repr

def Mode.toText : Mode → Text
  | .lr0 => "LR(0)"
  | .slr1 => "SLR(1)"

/-- What to do in a state on a lookahead. -/
inductive Action where
  /-- The input is a sentence. -/
  | accept
  /-- Reduce by the production with that number. -/
  | reduce (rule : Nat)
  /-- Read the lookahead and go to that state. -/
  | shift (state : Nat)
  /-- Refuse the input. -/
  | error
  deriving DecidableEq, Repr

/-- A use of an action that another kind of action was needed for. -/
inductive WrongAction where
  /-- The state of a shift was asked for. -/
  | notShift (action : Action)
  /-- The production of a reduction was asked for. -/
  | notReduce (action : Action)
  deriving DecidableEq, Repr

/-- The two kinds of conflict. A clash with accept counts as the second. -/
inductive ConflictKind where
  | shiftReduce
  | reduceReduce
  deriving DecidableEq, Repr

namespace Action

/-- The short form used in tables and traces. -/
def toText : Action → Text
  | .accept => "accept"
  | .reduce rule => "r" ++ Text.ofNat rule
  | .shift state => "s" ++ Text.ofNat state
  | .error => "error"

def shiftTarget : Action → Except WrongAction Nat
  | .shift state => .ok state
  | action => .error (.notShift action)

def reduceRule : Action → Except WrongAction Nat
  | .reduce rule => .ok rule
  | action => .error (.notReduce action)

/-- Settles two actions for one cell. The first result is the action that stays. The second, if
there is a conflict, is its kind and the two actions: the shift and the reduction, or the earlier
and the later action. -/
def settle (old new : Action) : Action × Option (ConflictKind × Action × Action) :=
  if old = new then (old, none)
  else
    match old, new with
    | .accept, _ => (.accept, some (.reduceReduce, old, new))
    | _, .accept => (.accept, some (.reduceReduce, old, new))
    | .reduce _, .reduce _ => (old, some (.reduceReduce, old, new))
    | .shift _, .shift _ => (old, none)
    | .shift _, _ => (old, some (.shiftReduce, old, new))
    | _, _ => (new, some (.shiftReduce, new, old))

end Action

/-- The complaint about a wrong kind of action. -/
def WrongAction.message : WrongAction → Text
  | .notShift action => "Invalid call to shift_value: action is " ++ action.toText
  | .notReduce action => "Invalid call to reduce_value: action is " ++ action.toText

/-- Two actions that clashed in a cell, and the one that stayed. -/
structure Conflict where
  kind : ConflictKind
  state : Nat
  lookahead : Symbol
  /-- The shift; between reductions, the earlier action. -/
  first : Action
  /-- The reduction; between reductions, the later action. -/
  second : Action
  /-- The action that stays in the cell. -/
  kept : Action
  deriving DecidableEq, Repr

/-- The conflict as a line of a report. -/
def Conflict.toText (c : Conflict) : Text :=
  let clash : Text :=
    match c.kind with
    | .shiftReduce =>
      "shift/reduce conflict ( " ++ c.first.toText ++ ", red'n " ++ c.second.toText ++ ")"
    | .reduceReduce =>
      "reduce/reduce conflict [" ++ c.first.toText ++ ", " ++ c.second.toText ++ "]"
  Text.ofNat c.state ++ ": " ++ clash ++ " on '" ++ c.lookahead ++ "', using " ++ c.kept.toText

end ShiftReduce
