import ShiftReduce.Symbol

/-!
# The stack of a parse

The cells of the stack alternate between states and symbols, with a state at the bottom and on top.
A stack is a list of cells, the top first.

`CellStack` is a stack together with the room set aside for it, which starts at 256 cells, doubles
when a push finds none left, and never shrinks.
-/

namespace ShiftReduce

inductive Cell where
  | state (number : Nat)
  | symbol (name : Symbol)
  deriving DecidableEq, Repr

/-- The number of the state or the symbol. -/
def Cell.toText : Cell → Text
  | .state number => Text.ofNat number
  | .symbol name => name

/-- The state on top of a list of cells, if there is one and it is a state. -/
def topState? : List Cell → Option Nat
  | .state number :: _ => some number
  | _ => none

/-- A stack and the room above it. -/
structure CellStack where
  /-- The cells, the top first. -/
  cells : List Cell
  /-- How many more cells there is room for. -/
  room : Nat
  deriving DecidableEq, Repr

namespace CellStack

def empty : CellStack := ⟨[], 256⟩

def count (s : CellStack) : Nat :=
  s.cells.length

/-- How many cells the stack has been given room for. -/
def capacity (s : CellStack) : Nat :=
  s.count + s.room

/-- Puts a cell on top. Without room, the stack is first given as much as it has. -/
def push (s : CellStack) (cell : Cell) : CellStack :=
  ⟨cell :: s.cells, (if s.room = 0 then s.count else s.room) - 1⟩

/-- Takes the top cell away. -/
def pop (s : CellStack) : Option Cell × CellStack :=
  match s.cells with
  | [] => (none, s)
  | cell :: rest => (some cell, ⟨rest, s.room + 1⟩)

/-- A cell with its place. Every tenth starts a line. -/
def cellText (cell : Cell) (place : Nat) : Text :=
  (if place > 0 && place % 10 == 0 then "\n" else "") ++
    "[" ++ Text.ofNat place ++ "] " ++ cell.toText ++ " "

/-- The room, the number of cells, and the cells from the bottom. -/
def listing (s : CellStack) : Text :=
  Text.line ("stack capacity: " ++ Text.ofNat s.capacity ++ ", count: " ++ Text.ofNat s.count) ++
    Text.line (s.cells.reverse.zipIdx.flatMap fun (cell, place) => cellText cell place)

end CellStack

end ShiftReduce
