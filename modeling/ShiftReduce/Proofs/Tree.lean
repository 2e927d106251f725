import Mathlib.Algebra.BigOperators.Group.List.Basic
import Mathlib.Algebra.GroupWithZero.Nat
import ShiftReduce.Tree
import ShiftReduce.Proofs.Derivation

/-!
# ShiftReduce.Proofs.Tree

**What a store of nodes holds.** `Arena.shape?` is the parse tree below a node. Making a leaf or a
node adds one parse tree and keeps all others (`Arena.leaf_spec`, `Arena.node_spec`), and the walk
over an explicit list of pending nodes collects the leaves of that parse tree
(`Arena.leaves_eq_yield`).

The trees and the weights of a store are both computed front to back, every entry from earlier ones.
In a store whose nodes refer only to earlier nodes (`Arena.WellFormed`) each entry can be read from
the finished list instead, which turns the two computations into recursion equations
(`Arena.trees_get`, `Arena.weights_get`).
-/

namespace ShiftReduce

namespace Tree

mutual

/-- The tree without the places of its nodes. -/
def shape : Tree → ParseTree
  | .mk _ symbol none _ => .leaf symbol
  | .mk _ symbol (some rule) children => .node rule symbol (shapes children)

/-- A list of trees without the places of their nodes. -/
def shapes : List Tree → List ParseTree
  | [] => []
  | t :: ts => shape t :: shapes ts

end

theorem shapes_eq_map (ts : List Tree) : shapes ts = ts.map shape := by
  induction ts with
  | nil => rfl
  | cons t ts ih => simp [shapes, ih]

end Tree

/-! ### Lists built from front to back -/

section Accumulate

variable {α β : Type} {f : Array β → α → β}

/-- Every element is computed from those before it. -/
def accumulate (f : Array β → α → β) (l : List α) (acc : Array β) : Array β :=
  l.foldl (fun acc x => acc.push (f acc x)) acc

theorem size_accumulate (l : List α) (acc : Array β) :
    (accumulate f l acc).size = acc.size + l.length := by
  induction l generalizing acc with
  | nil => rfl
  | cons x l ih =>
      rw [accumulate, List.foldl_cons]
      exact (ih _).trans (by simp only [Array.size_push, List.length_cons]; omega)

/-- What has been computed stays. -/
theorem accumulate_get_of_lt {l : List α} {acc : Array β} {i : Nat} (h : i < acc.size) :
    (accumulate f l acc)[i]? = acc[i]? := by
  induction l generalizing acc with
  | nil => rfl
  | cons x l ih =>
      rw [accumulate, List.foldl_cons]
      refine (ih (by simp only [Array.size_push]; omega)).trans ?_
      rw [Array.getElem?_push, if_neg (Nat.ne_of_lt h)]

theorem accumulate_append (l m : List α) (acc : Array β) :
    accumulate f (l ++ m) acc = accumulate f m (accumulate f l acc) :=
  List.foldl_append

/-- An element is computed from the elements before it, as they are in the end. -/
theorem accumulate_get {l : List α} {i : Nat} {x : α} (h : l[i]? = some x) :
    ∃ before : Array β, (accumulate f l #[])[i]? = some (f before x) ∧ before.size = i ∧
      ∀ j < i, before[j]? = (accumulate f l #[])[j]? := by
  obtain ⟨front, back, rfl, rfl⟩ : ∃ front back, l = front ++ x :: back ∧ front.length = i := by
    obtain ⟨hi, rfl⟩ := List.getElem?_eq_some_iff.mp h
    exact ⟨l.take i, l.drop (i + 1), by simp, by simp [Nat.le_of_lt hi]⟩
  have hsize : (accumulate f front #[]).size = front.length := by simp [size_accumulate]
  have hlater : ∀ {j : Nat}, j ≤ front.length → (accumulate f (front ++ x :: back) #[])[j]? =
      ((accumulate f front #[]).push (f (accumulate f front #[]) x))[j]? := by
    intro j hj
    have hlt : j < ((accumulate f front #[]).push (f (accumulate f front #[]) x)).size := by
      rw [Array.size_push, hsize]
      omega
    rw [accumulate_append]
    exact accumulate_get_of_lt hlt
  refine ⟨accumulate f front #[], ?_, hsize, fun j hj => ?_⟩
  · rw [hlater (Nat.le_refl _), Array.getElem?_push, if_pos hsize.symm]
  · rw [hlater (Nat.le_of_lt hj), Array.getElem?_push, if_neg (by omega)]

end Accumulate

namespace Arena

/-! ### Well-formed stores -/

/-- Every node refers to earlier nodes only. -/
def WellFormed (a : Arena) : Prop :=
  ∀ (id : NodeId) (n : Node), a.nodes[id]? = some n → ∀ child ∈ n.children, child < id

theorem wellFormed_empty : empty.WellFormed := by
  simp [WellFormed, empty]

theorem WellFormed.push {a : Arena} (h : a.WellFormed) {n : Node}
    (hn : ∀ child ∈ n.children, child < a.nodes.size) : WellFormed ⟨a.nodes.push n⟩ := by
  intro id m hm
  rw [Array.getElem?_push] at hm
  split at hm
  · rename_i hid
    cases hm
    exact hid ▸ hn
  · exact h id m hm

/-- The children of a node are there. -/
theorem WellFormed.lt_size {a : Arena} (h : a.WellFormed) {id : NodeId} {n : Node}
    (hn : a.nodes[id]? = some n) : ∀ child ∈ n.children, child < a.nodes.size := fun child hchild =>
  Nat.lt_trans (h id n hn child hchild) (Array.getElem?_eq_some_iff.mp hn).1

/-- The parse tree below a node. -/
def shape? (a : Arena) (id : NodeId) : Option ParseTree :=
  a.trees[id]?.map Tree.shape

theorem trees_eq (a : Arena) : a.trees = accumulate
    (fun trees n => Tree.mk trees.size n.symbol n.rule (n.children.filterMap (trees[·]?)))
    a.nodes.toList #[] := by
  rw [trees, ← Array.foldl_toList]
  rfl

theorem weights_eq (a : Arena) : a.weights = accumulate
    (fun weights n => n.children.foldl (fun sum id => sum + weights.getD id 0) 1)
    a.nodes.toList #[] := by
  rw [weights, ← Array.foldl_toList]
  rfl

theorem size_trees (a : Arena) : a.trees.size = a.nodes.size := by
  rw [trees_eq, size_accumulate]
  simp

theorem exists_tree {a : Arena} {id : NodeId} (h : id < a.nodes.size) :
    ∃ t, a.trees[id]? = some t :=
  ⟨_, Array.getElem?_eq_getElem (a.size_trees.symm ▸ h)⟩

theorem tree_eq_ok {a : Arena} {id : NodeId} {t : Tree} (ht : a.trees[id]? = some t) :
    a.tree id = .ok t := by
  rw [tree, ht]

theorem tree_eq_error {a : Arena} {id : NodeId} (h : a.nodes.size ≤ id) :
    a.tree id = .error (.node id) := by
  rw [tree, Array.getElem?_eq_none (a.size_trees.symm ▸ h)]

theorem lt_size_of_shape? {a : Arena} {id : NodeId} {t : ParseTree} (h : a.shape? id = some t) :
    id < a.nodes.size := by
  obtain ⟨tree, htree, -⟩ := Option.map_eq_some_iff.mp h
  rw [← size_trees]
  exact (Array.getElem?_eq_some_iff.mp htree).1

theorem exists_node_of_shape? {a : Arena} {id : NodeId} {t : ParseTree}
    (h : a.shape? id = some t) : ∃ n, a.nodes[id]? = some n :=
  ⟨_, Array.getElem?_eq_getElem (lt_size_of_shape? h)⟩

/-- A later node changes no earlier tree. -/
theorem trees_push {a : Arena} {id : NodeId} (h : id < a.nodes.size) (n : Node) :
    (⟨a.nodes.push n⟩ : Arena).trees[id]? = a.trees[id]? := by
  rw [trees_eq, trees_eq, Array.toList_push, accumulate_append]
  exact accumulate_get_of_lt (by rw [size_accumulate]; simpa using h)

theorem shape?_push {a : Arena} {id : NodeId} {t : ParseTree} (h : a.shape? id = some t)
    (n : Node) : shape? ⟨a.nodes.push n⟩ id = some t := by
  rw [shape?, trees_push (lt_size_of_shape? h)]
  exact h

/-! ### Trees and weights as recursion equations -/

section Equations

variable {a : Arena} {id : NodeId} {n : Node}

theorem trees_get (h : a.WellFormed) (hn : a.nodes[id]? = some n) :
    a.trees[id]? = some (.mk id n.symbol n.rule (n.children.filterMap (a.trees[·]?))) := by
  rw [trees_eq]
  obtain ⟨before, hget, hsize, hbefore⟩ := accumulate_get
    (f := fun trees n => Tree.mk trees.size n.symbol n.rule (n.children.filterMap (trees[·]?)))
    (l := a.nodes.toList) (by simpa using hn)
  rw [hget, hsize, List.filterMap_congr fun child hchild => hbefore child (h id n hn child hchild)]

theorem weights_get (h : a.WellFormed) (hn : a.nodes[id]? = some n) :
    a.weights.getD id 0 = 1 + (n.children.map (a.weights.getD · 0)).sum := by
  have hsum : ∀ (weights : Array Nat) (children : List NodeId) (start : Nat),
      children.foldl (fun sum id => sum + weights.getD id 0) start =
        start + (children.map (weights.getD · 0)).sum := by
    intro weights children
    induction children with
    | nil => simp
    | cons child children ih =>
        intro start
        rw [List.foldl_cons, ih, List.map_cons, List.sum_cons, Nat.add_assoc]
  rw [weights_eq]
  obtain ⟨before, hget, -, hbefore⟩ := accumulate_get
    (f := fun weights (n : Node) => n.children.foldl (fun sum id => sum + weights.getD id 0) 1)
    (l := a.nodes.toList) (by simpa using hn)
  rw [Array.getD_eq_getD_getElem?, hget, Option.getD_some, hsum]
  congr 2
  refine List.map_congr_left fun child hchild => ?_
  rw [Array.getD_eq_getD_getElem?, Array.getD_eq_getD_getElem?,
    hbefore child (h id n hn child hchild)]

/-- Nodes that are there have a tree each. -/
theorem map_trees {children : List NodeId} (h : ∀ child ∈ children, child < a.nodes.size) :
    children.map (a.trees[·]?) = (children.filterMap (a.trees[·]?)).map some := by
  induction children with
  | nil => rfl
  | cons child children ih =>
      have hchild : child < a.trees.size := a.size_trees ▸ h child (by simp)
      simp [hchild, ih fun c hc => h c (by simp [hc])]

/-- Nodes that are there have a parse tree each. -/
theorem map_shape? {children : List NodeId} (h : ∀ child ∈ children, child < a.nodes.size) :
    children.map a.shape? =
      ((children.filterMap (a.trees[·]?)).map Tree.shape).map some := by
  have hshapes := congrArg (List.map (Option.map Tree.shape)) (map_trees h)
  rw [List.map_map, List.map_map] at hshapes
  rw [List.map_map]
  exact hshapes

theorem shape?_of_leaf (h : a.WellFormed) (hn : a.nodes[id]? = some n) (hrule : n.rule = none) :
    a.shape? id = some (.leaf n.symbol) := by
  rw [shape?, trees_get h hn, hrule]
  rfl

theorem shape?_of_node (h : a.WellFormed) (hn : a.nodes[id]? = some n) {rule : Nat}
    (hrule : n.rule = some rule) {ts : List ParseTree}
    (hts : n.children.map a.shape? = ts.map some) :
    a.shape? id = some (.node rule n.symbol ts) := by
  rw [map_shape? (h.lt_size hn)] at hts
  have hshapes := List.map_inj_right (fun _ _ => Option.some.inj) |>.mp hts
  rw [shape?, trees_get h hn, hrule]
  simp [Tree.shape, Tree.shapes_eq_map, ← hshapes]

/-- The children of an inner node have the trees below it. -/
theorem exists_map_shape? (h : a.WellFormed) (hn : a.nodes[id]? = some n) :
    ∃ ts : List ParseTree, n.children.map a.shape? = ts.map some :=
  ⟨_, map_shape? (h.lt_size hn)⟩

end Equations

/-! ### Making nodes -/

/-- What making a node does: the store stays well formed, and keeps its trees. -/
structure Extends (a a' : Arena) : Prop where
  wellFormed : a'.WellFormed
  keeps : ∀ {id : NodeId} {t : ParseTree}, a.shape? id = some t → a'.shape? id = some t

theorem Extends.map_shape? {a a' : Arena} (h : a.Extends a') {ids : List NodeId}
    {ts : List ParseTree} (hids : ids.map a.shape? = ts.map some) :
    ids.map a'.shape? = ts.map some := by
  rw [← hids]
  refine List.map_congr_left fun id hid => ?_
  obtain ⟨t, -, ht⟩ := List.mem_map.mp (hids ▸ List.mem_map_of_mem hid)
  rw [← ht, h.keeps ht.symm]

theorem leaf_spec {a : Arena} (h : a.WellFormed) (s : Symbol) :
    a.Extends (a.leaf s).2 ∧ (a.leaf s).2.shape? (a.leaf s).1 = some (.leaf s) := by
  have hwf : (a.leaf s).2.WellFormed := h.push (by simp)
  exact ⟨⟨hwf, fun ht => shape?_push ht _⟩,
    shape?_of_leaf (n := ⟨s, [], none⟩) hwf (by simp [leaf]) rfl⟩

/-- A node over nodes that are there is made, with their trees below it. -/
theorem node_spec {a : Arena} (h : a.WellFormed) (s : Symbol) (rule : Nat) {children : List NodeId}
    {ts : List ParseTree} (hchildren : children.map a.shape? = ts.map some) :
    ∃ id a', a.node s rule children = .ok (id, a') ∧ a.Extends a' ∧
      a'.shape? id = some (.node rule s ts) := by
  have hlt : ∀ child ∈ children, child < a.nodes.size := by
    intro child hchild
    obtain ⟨t, -, ht⟩ := List.mem_map.mp (hchildren ▸ List.mem_map_of_mem hchild)
    exact lt_size_of_shape? ht.symm
  have hfind : children.find? (fun id => !decide (id < a.nodes.size)) = none := by
    simpa using hlt
  have hextends : a.Extends ⟨a.nodes.push ⟨s, children, some rule⟩⟩ :=
    ⟨h.push hlt, fun ht => shape?_push ht _⟩
  refine ⟨a.nodes.size, ⟨a.nodes.push ⟨s, children, some rule⟩⟩, by rw [node, hfind], hextends, ?_⟩
  exact shape?_of_node (n := ⟨s, children, some rule⟩) hextends.wellFormed (by simp) rfl
    (hextends.map_shape? hchildren)

/-! ### Leaves -/

/-- A walk with enough fuel adds the leaves of the pending nodes, from left to right. Every node
that it meets uses one unit of fuel, and the weights count these. -/
theorem collectLeaves_eq {a : Arena} (h : a.WellFormed) {fuel : Nat} :
    ∀ {pending : List NodeId} {ts : List ParseTree} {found : Array Symbol},
      pending.map a.shape? = ts.map some → (pending.map (a.weights.getD · 0)).sum ≤ fuel →
      a.collectLeaves fuel pending found = .ok (found.toList ++ ParseTree.yields ts) := by
  induction fuel with
  | zero =>
      intro pending ts found hts hfuel
      cases pending with
      | nil =>
          obtain rfl : ts = [] := by simpa using hts.symm
          simp [collectLeaves, ParseTree.yields]
      | cons id pending =>
          obtain ⟨t, ts, rfl, ht, -⟩ := List.map_eq_cons_iff.mp hts.symm
          obtain ⟨n, hn⟩ := exists_node_of_shape? ht.symm
          rw [List.map_cons, List.sum_cons, weights_get h hn] at hfuel
          omega
  | succ fuel ih =>
      intro pending ts found hts hfuel
      cases pending with
      | nil =>
          obtain rfl : ts = [] := by simpa using hts.symm
          simp [collectLeaves, ParseTree.yields]
      | cons id pending =>
          obtain ⟨t, ts, rfl, ht, hrest⟩ := List.map_eq_cons_iff.mp hts.symm
          obtain ⟨n, hn⟩ := exists_node_of_shape? ht.symm
          rw [List.map_cons, List.sum_cons, weights_get h hn] at hfuel
          rw [collectLeaves, hn]
          dsimp only
          cases hrule : n.rule with
          | none =>
              have hleaf := shape?_of_leaf h hn hrule
              obtain rfl : t = .leaf n.symbol :=
                Option.some.inj (ht.trans hleaf)
              rw [if_pos (by simp), ih hrest.symm (by omega)]
              simp [ParseTree.yields, ParseTree.yield]
          | some rule =>
              -- the node is replaced by its children, whose weights are its own less one
              obtain ⟨children, hchildren⟩ := exists_map_shape? h hn
              have hnode := shape?_of_node h hn hrule hchildren
              obtain rfl : t = .node rule n.symbol children :=
                Option.some.inj (ht.trans hnode)
              have hpending : (n.children ++ pending).map a.shape? =
                  (children ++ ts).map some := by
                rw [List.map_append, List.map_append, hchildren, hrest]
              have hfuel' : ((n.children ++ pending).map (a.weights.getD · 0)).sum ≤
                  fuel := by
                rw [List.map_append, List.sum_append]
                omega
              rw [if_neg (by simp), ih hpending hfuel']
              simp [ParseTree.yields, ParseTree.yield]

/-- The leaves below a node are the leaves of its parse tree. -/
theorem leaves_eq_yield {a : Arena} (h : a.WellFormed) {root : NodeId} {t : ParseTree}
    (ht : a.shape? root = some t) : a.leaves root = .ok t.yield := by
  have hshapes : [root].map a.shape? = [t].map some := by simpa using ht
  rw [leaves, collectLeaves_eq h hshapes (by simp)]
  simp [ParseTree.yields]

end Arena

end ShiftReduce
