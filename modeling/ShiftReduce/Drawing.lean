import ShiftReduce.Generation
import ShiftReduce.Tree

/-!
# Drawings for graphviz

The automaton is drawn from the table. A state shows its items, and its row gives the edges: solid
for shifts and gotos, dashed for reductions, and one to `acc` for accept. Edges with the same end
are one edge with all their labels. Where the only reduction of an LR(0) row is drawn, its label is
`(any)`.

A parse tree is drawn with an edge from every node to each of its children.
-/

namespace ShiftReduce

/-! ### Edges of a row -/

/-- The edges to one place, as one edge with their labels. -/
structure DrawnEdge where
  /-- A state, or a production for a reduction. -/
  target : Nat
  labels : List Symbol
  deriving DecidableEq, Repr

namespace DrawnEdge

/-- The edge with one more label, unless it has it already. -/
def addLabel (e : DrawnEdge) (label : Symbol) : DrawnEdge :=
  if e.labels.contains label then e else { e with labels := e.labels ++ [label] }

/-- Adds an edge: as a label of the edge to the same place, or as a new last edge. -/
def add (target : Nat) (label : Symbol) : List DrawnEdge → List DrawnEdge
  | [] => [⟨target, [label]⟩]
  | e :: rest => if e.target = target then e.addLabel label :: rest else e :: add target label rest

end DrawnEdge

/-- The edges that leave a state. -/
structure DrawnRow where
  /-- The lookaheads on which it accepts. -/
  accepting : List Symbol
  /-- The reductions, by production. -/
  reductions : List DrawnEdge
  /-- The shifts and gotos, by state. -/
  moves : List DrawnEdge
  deriving DecidableEq, Repr

namespace DrawnRow

def empty : DrawnRow := ⟨[], [], []⟩

def addAction (d : DrawnRow) (symbol : Symbol) : Action → DrawnRow
  | .accept => { d with accepting := d.accepting ++ [symbol] }
  | .reduce rule => { d with reductions := DrawnEdge.add rule symbol d.reductions }
  | .shift state => { d with moves := DrawnEdge.add state symbol d.moves }
  | .error => d

def addGoto (d : DrawnRow) (symbol : Symbol) (target : Nat) : DrawnRow :=
  if symbol = Symbol.goal then d else { d with moves := DrawnEdge.add target symbol d.moves }

/-- The label of a reduction that takes every lookahead. -/
def anyLabel : Symbol := "(any)"

/-- Relabels the only reduction of an LR(0) row. -/
def relabel (mode : Mode) (d : DrawnRow) : DrawnRow :=
  match mode, d.reductions with
  | .lr0, [e] => { d with reductions := [⟨e.target, [anyLabel]⟩] }
  | _, _ => d

def ofRow (mode : Mode) (row : Row) : DrawnRow :=
  let actions :=
    row.actions.toList.foldl (fun d (symbol, action) => d.addAction symbol action) empty
  (row.gotos.toList.foldl (fun d (symbol, target) => d.addGoto symbol target) actions).relabel mode

end DrawnRow

/-! ### The automaton -/

namespace Drawing

/-- A text inside the double quotes of a label: a backslash goes before a double quote and before a
backslash. -/
def escape (t : Text) : Text :=
  t.flatMap fun b => if b = 34 || b = 92 then [92, b] else [b]

def labelText (e : DrawnEdge) : Text :=
  Text.join "," (e.labels.map escape)

/-- The edges of a state as lines. -/
def rowLines (n : Nat) (d : DrawnRow) : Text :=
  let source := Text.ofNat n
  d.accepting.flatMap
      (fun s => Text.line ("  " ++ source ++ " -> acc [ label = \"" ++ escape s ++ "\" ];")) ++
    d.reductions.flatMap
      (fun e => Text.line ("  " ++ source ++ " -> r" ++ Text.ofNat e.target ++ " [ label=\"" ++
        labelText e ++ "\" style=\"dashed\" ];")) ++
    d.moves.flatMap fun e =>
      Text.line ("  " ++ source ++ " -> " ++ Text.ofNat e.target ++ " [ label=\"" ++
        labelText e ++ "\" ];")

/-- The edges that leave a state. -/
def rowOf (gen : Generation) (n : Nat) : Except Missing DrawnRow :=
  DrawnRow.ofRow gen.mode <$> gen.table.row n

/-- A state and its items. -/
def stateLine (gen : Generation) (n : Nat) : Except Missing Text := do
  let labels ← gen.stateLabels n
  let items : Text := labels.flatMap fun label => Text.ofString "\\n" ++ escape label
  return Text.line ("  " ++ Text.ofNat n ++ " [ label=\"" ++ Text.ofNat n ++ items ++ "\" ];")

/-- The automaton with the actions of the table. -/
def automaton (gen : Generation) : Except Missing Text := do
  let numbers := List.range gen.automaton.states.size
  let states ← numbers.mapM (stateLine gen)
  let edges ← numbers.mapM fun n => rowLines n <$> rowOf gen n
  return Text.ofString
    "digraph abstract \x7b\n\n  node [shape = doublecircle]; 0 acc;\n  node [shape = circle];\n" ++
    states.flatten ++ edges.flatten ++ Text.ofString "\n\x7d\n"

/-! ### Parse trees -/

/-- A node; leaves are boxes. -/
def nodeLine (id : NodeId) (symbol : Symbol) (rule : Option Nat) : Text :=
  let shape : Text := if rule.isNone then " shape = box" else ""
  Text.line ("  n" ++ Text.ofNat id ++ " [ label=\"" ++ escape symbol ++ "\"" ++ shape ++ " ];")

/-- The edge from a node to a child. -/
def edgeLine (parent child : NodeId) : Text :=
  Text.line ("  n" ++ Text.ofNat parent ++ " -> n" ++ Text.ofNat child ++ ";")

mutual

/-- A node and everything below it, line by line. -/
def treeLines : Tree → List Text
  | .mk id symbol rule children => nodeLine id symbol rule :: childLines id children

/-- The children of a node, each with the edge that leads to it after everything below it. -/
def childLines (parent : NodeId) : List Tree → List Text
  | [] => []
  | .mk id symbol rule children :: rest =>
    treeLines (.mk id symbol rule children) ++ edgeLine parent id :: childLines parent rest

end

def tree (a : Arena) (root : NodeId) : Except Missing Text := do
  let t ← a.tree root
  return Text.ofString "digraph tree \x7b\n\n  node [shape = ellipse];\n" ++
    (treeLines t).flatten ++ Text.ofString "\n\x7d\n"

end Drawing

end ShiftReduce
