import ShiftReduce.Grammar

/-!
# Parse trees

A parse builds its tree from the leaves up. The nodes are stored in the order in which they are
made, and a node refers to its children by their place in the store. A node is made only from nodes
that are there already, so following children always ends.

This module provides:

* `Arena`, the store of nodes, with `Arena.leaf` and `Arena.node`;
* `Tree`, what a node stands for once its children are followed, and `Arena.tree`;
* the text forms of a tree: in brackets, indented, and as a list of leaves.
-/

namespace ShiftReduce

/-- The place of a node in its store. -/
abbrev NodeId := Nat

structure Node where
  symbol : Symbol
  /-- Its children from left to right. A leaf has none, nor has an empty reduction. -/
  children : List NodeId
  /-- The production that made it; none for a leaf. -/
  rule : Option Nat
  deriving DecidableEq, Repr

/-- The nodes made so far. -/
structure Arena where
  /-- The nodes in the order in which they were made. -/
  nodes : Array Node
  deriving DecidableEq

/-- A node with everything below it. -/
inductive Tree where
  | mk (id : NodeId) (symbol : Symbol) (rule : Option Nat) (children : List Tree)

namespace Arena

def empty : Arena := ⟨#[]⟩

def leaf (a : Arena) (symbol : Symbol) : NodeId × Arena :=
  (a.nodes.size, ⟨a.nodes.push ⟨symbol, [], none⟩⟩)

/-- Adds a node over nodes that are there. -/
def node (a : Arena) (symbol : Symbol) (rule : Nat) (children : List NodeId) :
    Except Missing (NodeId × Arena) :=
  match children.find? fun id => !decide (id < a.nodes.size) with
  | some id => .error (.child id)
  | none => .ok (a.nodes.size, ⟨a.nodes.push ⟨symbol, children, some rule⟩⟩)

/-- A node, or the complaint that it is not there. -/
def get (a : Arena) (id : NodeId) : Except Missing Node :=
  match a.nodes[id]? with
  | some node => .ok node
  | none => .error (.node id)

/-! ### Trees of a store -/

/-- The trees of all nodes, each made from the trees before it. -/
def trees (a : Arena) : Array Tree :=
  a.nodes.foldl
    (fun trees n => trees.push (.mk trees.size n.symbol n.rule (n.children.filterMap (trees[·]?))))
    #[]

def tree (a : Arena) (root : NodeId) : Except Missing Tree :=
  match a.trees[root]? with
  | some t => .ok t
  | none => .error (.node root)

/-! ### Leaves -/

/-- For every node, how many nodes a walk below it meets, itself included. A node that is the child
of several is met several times. -/
def weights (a : Arena) : Array Nat :=
  a.nodes.foldl
    (fun weights n => weights.push (n.children.foldl (fun sum id => sum + weights.getD id 0) 1)) #[]

/-- Walks the pending nodes, the first of them first and its children before the others. -/
def collectLeaves (a : Arena) : Nat → List NodeId → Array Symbol → Except Missing (List Symbol)
  | 0, _, found => .ok found.toList
  | _ + 1, [], found => .ok found.toList
  | fuel + 1, id :: pending, found =>
    match a.nodes[id]? with
    | none => .error (.node id)
    | some n =>
      if n.rule.isNone then a.collectLeaves fuel pending (found.push n.symbol)
      else a.collectLeaves fuel (n.children ++ pending) found

/-- The symbols of the leaves below a node, from left to right. -/
def leaves (a : Arena) (root : NodeId) : Except Missing (List Symbol) :=
  a.collectLeaves (a.weights.getD root 0 + 1) [root] #[]

end Arena

/-! ### Text forms -/

namespace Tree

mutual

/-- The symbol of a node, and its children in brackets. -/
def toText : Tree → Text
  | .mk _ symbol _ [] => symbol
  | .mk _ symbol _ (child :: children) =>
    symbol ++ "(" ++ Text.join ", " (toText child :: toTexts children) ++ ")"

def toTexts : List Tree → List Text
  | [] => []
  | t :: ts => toText t :: toTexts ts

end

/-- A node as a line at some depth, with the production that made it. -/
def nodeLine (g : Grammar) (depth : Nat) (symbol : Symbol) (rule : Option Nat) :
    Except Missing Text := do
  let indent : Text := (List.replicate depth (Text.ofString "  ")).flatten
  match rule with
  | none => return Text.line (indent ++ symbol)
  | some id =>
    let p ← g.rule id
    return Text.line (indent ++ symbol ++ "  [" ++ p.toText ++ "]")

mutual

/-- One node to a line, children after their parent and one level deeper. -/
def lines (g : Grammar) (depth : Nat) : Tree → Except Missing (List Text)
  | .mk _ symbol rule children => do
    let here ← nodeLine g depth symbol rule
    let below ← linesOfAll g (depth + 1) children
    return here :: below

def linesOfAll (g : Grammar) (depth : Nat) : List Tree → Except Missing (List Text)
  | [] => .ok []
  | t :: ts => do
    let here ← lines g depth t
    let rest ← linesOfAll g depth ts
    return here ++ rest

end

/-- The tree with its children indented under their parents. -/
def indented (g : Grammar) (t : Tree) : Except Missing Text :=
  List.flatten <$> t.lines g 0

end Tree

end ShiftReduce
