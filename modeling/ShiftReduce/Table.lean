import ShiftReduce.Table.Action
import ShiftReduce.Missing

/-!
# Parsing tables

A table has a row for every state: an action for some lookaheads, and a state to go to for some
non-terminals. Inserting an action into a taken cell settles the two actions and records their
conflict. Conflicts are kept in the order in which they arose, and none is ever removed.
-/

namespace ShiftReduce

/-- The cells of a state. -/
structure Row where
  actions : SymbolMap Action
  gotos : SymbolMap Nat
  deriving DecidableEq

def Row.empty : Row := ⟨∅, ∅⟩

structure Table where
  mode : Mode
  rows : Array Row
  conflicts : Array Conflict
  deriving DecidableEq

namespace Table

def empty (mode : Mode) (states : Nat) : Table :=
  ⟨mode, .replicate states .empty, #[]⟩

/-! ### Cells -/

/-- The row of a state, or the complaint that there is none. -/
def row (t : Table) (n : Nat) : Except Missing Row :=
  match t.rows[n]? with
  | some row => .ok row
  | none => .error (.row n)

def action? (t : Table) (n : Nat) (lookahead : Symbol) : Option Action :=
  t.rows[n]?.bind (·.actions[lookahead]?)

/-- The state to go to on a non-terminal. -/
def goto? (t : Table) (n : Nat) (symbol : Symbol) : Option Nat :=
  t.rows[n]?.bind (·.gotos[symbol]?)

/-- Puts an action into a cell, and settles it with the action there. -/
def insertAction (t : Table) (n : Nat) (lookahead : Symbol) (action : Action) :
    Except Missing Table := do
  let row ← t.row n
  match row.actions[lookahead]? with
  | none =>
    let row := { row with actions := row.actions.insert lookahead action }
    return { t with rows := t.rows.setIfInBounds n row }
  | some old =>
    let (kept, clash) := old.settle action
    let row := { row with actions := row.actions.insert lookahead kept }
    let conflicts :=
      match clash with
      | none => t.conflicts
      | some (kind, first, second) => t.conflicts.push ⟨kind, n, lookahead, first, second, kept⟩
    return { t with rows := t.rows.setIfInBounds n row, conflicts }

/-- Sets the state to go to on a non-terminal. -/
def setGoto (t : Table) (n : Nat) (symbol : Symbol) (target : Nat) : Except Missing Table := do
  let row ← t.row n
  let row := { row with gotos := row.gotos.insert symbol target }
  return { t with rows := t.rows.setIfInBounds n row }

/-! ### Conflicts -/

/-- The conflicts of a kind, in the order in which they arose. -/
def conflictsOf (t : Table) (kind : ConflictKind) : List Conflict :=
  t.conflicts.toList.filter (·.kind == kind)

/-- The conflicts of a kind in a row. -/
def rowConflicts (t : Table) (kind : ConflictKind) (n : Nat) : List Conflict :=
  (t.conflictsOf kind).filter (·.state == n)

/-- Whether no conflict arose: the grammar belongs to the class that the mode names. -/
def isValid (t : Table) : Bool :=
  t.conflicts.isEmpty

end Table

end ShiftReduce
