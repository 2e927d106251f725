import Mathlib.Data.List.Nodup
import Mathlib.Logic.Relation
import ShiftReduce.Proofs.Tree

/-!
# ShiftReduce.Proofs.Tree.Forest

**A store in which every node has one place.** While a tree is built, each node of the store is
either a root or the child of another node, and nothing twice. `Arena.Forest` says so in one
permutation: the roots and all children are the nodes of the store. A new node keeps it if its
children are roots and stop being roots (`Arena.Forest.push`).

With one root left the store is a tree. Every other node is the child of exactly one node
(`Arena.Forest.exists_parent`), and it is found by going down from the root
(`Arena.Forest.below_root`): its parent was made later than it, so going up ends at the root.

The text of a tree is made from the texts of its children (`Tree.toText_mk`), and like them it does
not change when nodes are added (`Arena.text?_push`).
-/

namespace ShiftReduce

/-! ### Texts -/

/-- A symbol, followed by the texts below it in brackets if there are any. -/
def Tree.bracketed (symbol : Symbol) (texts : List Text) : Text :=
  if texts = [] then symbol else symbol ++ "(" ++ Text.join ", " texts ++ ")"

namespace Tree

theorem toTexts_eq_map (ts : List Tree) : toTexts ts = ts.map toText := by
  induction ts with
  | nil => rfl
  | cons t ts ih => rw [toTexts, ih, List.map_cons]

theorem toText_mk (id : NodeId) (symbol : Symbol) (rule : Option Nat) (children : List Tree) :
    toText (.mk id symbol rule children) = bracketed symbol (children.map toText) := by
  cases children with
  | nil => simp [toText, bracketed]
  | cons t ts => simp [toText, bracketed, toTexts_eq_map]

end Tree

namespace Arena

variable {a : Arena}

/-- The text of the tree below a node. -/
def text? (a : Arena) (id : NodeId) : Option Text :=
  a.trees[id]?.map Tree.toText

/-- A later node changes no earlier text. -/
theorem text?_push {id : NodeId} (h : id < a.nodes.size) (n : Node) :
    text? ⟨a.nodes.push n⟩ id = a.text? id := by
  rw [text?, text?, trees_push h]

/-- The text of a node from those of its children. -/
theorem text?_of_node (h : a.WellFormed) {id : NodeId} {n : Node} (hn : a.nodes[id]? = some n)
    {texts : List Text} (htexts : n.children.map a.text? = texts.map some) :
    a.text? id = some (Tree.bracketed n.symbol texts) := by
  have hchildren : (n.children.filterMap (a.trees[·]?)).map Tree.toText = texts := by
    have hfound := congrArg (List.filterMap fun text? => text?) htexts
    rw [List.map_filterMap]
    simpa [List.filterMap_map, Function.comp_def, text?] using hfound
  rw [text?, trees_get h hn, Option.map_some, Tree.toText_mk, hchildren]

/-! ### Forests -/

/-- How often a node has another one as its child. -/
def childCount (a : Arena) (parent child : NodeId) : Nat :=
  match a.nodes[parent]? with
  | some n => n.children.count child
  | none => 0

/-- A node has another one as its child. -/
def Child (a : Arena) (parent child : NodeId) : Prop :=
  0 < a.childCount parent child

/-- The children of all nodes. -/
def children (a : Arena) : List NodeId :=
  a.nodes.toList.flatMap (·.children)

/-- Every node is a root or the child of another node, and nothing twice. -/
def Forest (a : Arena) (roots : List NodeId) : Prop :=
  (roots ++ a.children).Perm (List.range a.nodes.size)

theorem forest_empty : empty.Forest [] :=
  List.Perm.refl _

theorem children_push (n : Node) : children ⟨a.nodes.push n⟩ = a.children ++ n.children := by
  simp [children]

theorem child_iff {parent child : NodeId} :
    a.Child parent child ↔ ∃ n, a.nodes[parent]? = some n ∧ child ∈ n.children := by
  rw [Child, childCount]
  cases a.nodes[parent]? with
  | none => simp
  | some n => simp [List.count_pos_iff]

namespace Forest

variable {roots : List NodeId} {root id : NodeId}

theorem lt_size (h : a.Forest roots) (hid : id ∈ roots) : id < a.nodes.size :=
  List.mem_range.mp (h.mem_iff.mp (List.mem_append_left _ hid))

/-- A node over some of the roots takes their place. -/
theorem push {taken below : List NodeId} (h : a.Forest (taken ++ below)) {n : Node}
    (hn : n.children.Perm taken) : Forest ⟨a.nodes.push n⟩ (a.nodes.size :: below) := by
  have hold : (below ++ (a.children ++ n.children)).Perm (List.range a.nodes.size) :=
    calc List.Perm (below ++ (a.children ++ n.children)) (below ++ (n.children ++ a.children)) :=
          List.perm_append_comm.append_left below
      List.Perm _ (below ++ (taken ++ a.children)) :=
          (hn.append_right a.children).append_left below
      List.Perm _ (taken ++ below ++ a.children) := by
          rw [← List.append_assoc]
          exact List.perm_append_comm.append_right a.children
      List.Perm _ (List.range a.nodes.size) := h
  rw [Forest, children_push, Array.size_push, List.range_succ, List.cons_append]
  exact (hold.cons a.nodes.size).trans (List.perm_append_singleton _ _).symm

theorem nodup_children (h : a.Forest roots) : a.children.Nodup :=
  (h.nodup_iff.mpr List.nodup_range).of_append_right

/-- A node that is no root is the child of a node. -/
theorem exists_child (h : a.Forest roots) (hid : id < a.nodes.size) (hroot : id ∉ roots) :
    ∃ parent, a.Child parent id := by
  have hmem : id ∈ roots ++ a.children := h.mem_iff.mpr (List.mem_range.mpr hid)
  obtain ⟨n, hn, hchild⟩ := List.mem_flatMap.mp ((List.mem_append.mp hmem).resolve_left hroot)
  obtain ⟨parent, hparent⟩ := List.mem_iff_getElem?.mp hn
  exact ⟨parent, child_iff.mpr ⟨n, by simpa using hparent, hchild⟩⟩

/-- Of two nodes, only one has a node as its child. -/
theorem notMem_children_of_lt (h : a.Forest roots) {i j : NodeId} {n m : Node} (hlt : i < j)
    (hn : a.nodes[i]? = some n) (hm : a.nodes[j]? = some m) (hid : id ∈ n.children) :
    id ∉ m.children := by
  have hpairwise := List.pairwise_iff_getElem.mp (List.nodup_flatMap.mp h.nodup_children).2
  obtain ⟨hi, rfl⟩ := Array.getElem?_eq_some_iff.mp hn
  obtain ⟨hj, rfl⟩ := Array.getElem?_eq_some_iff.mp hm
  exact fun hid' => hpairwise i j hi hj hlt hid hid'

theorem child_unique (h : a.Forest roots) {parent other : NodeId} (hparent : a.Child parent id)
    (hother : a.Child other id) : other = parent := by
  obtain ⟨n, hn, hid⟩ := child_iff.mp hparent
  obtain ⟨m, hm, hid'⟩ := child_iff.mp hother
  rcases Nat.lt_trichotomy other parent with hlt | heq | hlt
  · exact absurd hid (h.notMem_children_of_lt hlt hm hn hid')
  · exact heq
  · exact absurd hid' (h.notMem_children_of_lt hlt hn hm hid)

/-- A node is the child of a node only once. -/
theorem childCount_eq_one (h : a.Forest roots) {parent : NodeId} (hparent : a.Child parent id) :
    a.childCount parent id = 1 := by
  obtain ⟨n, hn, hid⟩ := child_iff.mp hparent
  have hmem : n ∈ a.nodes.toList := List.mem_of_getElem? (by simpa using hn)
  have hnodup : n.children.Nodup := (List.nodup_flatMap.mp h.nodup_children).1 n hmem
  rw [childCount, hn]
  exact List.count_eq_one_of_mem hnodup hid

/-- A node that is no root is the child of exactly one node, and only once. -/
theorem exists_parent (h : a.Forest roots) (hid : id < a.nodes.size) (hroot : id ∉ roots) :
    ∃ parent, a.childCount parent id = 1 ∧
      ∀ other, other ≠ parent → a.childCount other id = 0 := by
  obtain ⟨parent, hparent⟩ := h.exists_child hid hroot
  refine ⟨parent, h.childCount_eq_one hparent, fun other hne => ?_⟩
  exact Nat.eq_zero_of_not_pos fun hother => hne (h.child_unique hparent hother)

/-- The texts of the roots after a node was made over some of them. -/
theorem map_text?_push {taken below : List NodeId} (h : a.Forest (taken ++ below))
    (hwf : a.WellFormed) {n : Node} (hn : n.children = taken.reverse) {texts : List Text}
    (htexts : (taken ++ below).map a.text? = texts.map some) :
    (a.nodes.size :: below).map (text? ⟨a.nodes.push n⟩) =
      (Tree.bracketed n.symbol (texts.take taken.length).reverse ::
        texts.drop taken.length).map some := by
  have hkeep : (taken ++ below).map (text? ⟨a.nodes.push n⟩) = texts.map some := by
    rw [← htexts]
    exact List.map_congr_left fun id hid => text?_push (h.lt_size hid) n
  have htaken := congrArg (List.take taken.length) hkeep
  have hbelow := congrArg (List.drop taken.length) hkeep
  rw [← List.map_take, List.take_left, ← List.map_take] at htaken
  rw [← List.map_drop, List.drop_left, ← List.map_drop] at hbelow
  have hnew : WellFormed ⟨a.nodes.push n⟩ := hwf.push fun child hchild =>
    h.lt_size (List.mem_append_left _ (List.mem_reverse.mp (hn ▸ hchild)))
  have hchildren : n.children.map (text? ⟨a.nodes.push n⟩) =
      (texts.take taken.length).reverse.map some := by
    rw [hn, List.map_reverse, htaken, List.map_reverse]
  rw [List.map_cons, List.map_cons, hbelow, text?_of_node hnew (by simp) hchildren]

/-- Every node is below the only root. The way there goes up, to parents that were made later. -/
theorem below_root (h : a.Forest [root]) (hwf : a.WellFormed) {id : NodeId}
    (hid : id < a.nodes.size) : Relation.ReflTransGen a.Child root id := by
  by_cases hroot : id = root
  · rw [hroot]
  · obtain ⟨parent, hparent⟩ := h.exists_child hid (by simpa using hroot)
    obtain ⟨n, hn, hchild⟩ := child_iff.mp hparent
    have hlt : id < parent := hwf parent n hn id hchild
    have hsize : parent < a.nodes.size := (Array.getElem?_eq_some_iff.mp hn).1
    exact (h.below_root hwf hsize).tail hparent
termination_by a.nodes.size - id
decreasing_by
  exact Nat.sub_lt_sub_left hid hlt

end Forest

end Arena

end ShiftReduce
