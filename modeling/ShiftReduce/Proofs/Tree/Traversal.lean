import ShiftReduce.Proofs.Listing
import ShiftReduce.Proofs.Tree.Forest

/-!
# ShiftReduce.Proofs.Tree.Traversal

**Walks over any store of nodes.** A store can be built by hand: leaves and nodes are made in any
order, a node may be the child of several others, and a call may name a child that there is not
(`Arena.Call`, `Arena.ofCalls`). Such a call fails and changes nothing, so children always come
before their parents.

A store is walked in three ways: for the text in brackets, for the indented text and for the leaves.
Each is compared with a recursion that goes down to the children by looking them up
(`Arena.recurse`), and that complains if one is not there. The leaves are also those of a loop that
keeps the pending nodes on a stack (`Arena.Pops`). A node that is shared is met once for each way
down to it, so the number of turns is not the number of nodes; what ends the loop is that every
child is smaller than its parent, by induction on which each pending node is worked off without a
look at those below it (`Arena.pops_node`).
-/

namespace ShiftReduce

namespace Arena

variable {a : Arena} {id : NodeId} {n : Node}

/-! ### Calls -/

/-- A call that makes a node. -/
inductive Call where
  | leaf (symbol : Symbol)
  /-- A node over others, which it names. -/
  | node (symbol : Symbol) (rule : Nat) (children : List NodeId)

/-- The node that a call is to make. -/
def Call.made : Call → Node
  | .leaf symbol => ⟨symbol, [], none⟩
  | .node symbol rule children => ⟨symbol, children, some rule⟩

/-- Makes a call. The result is the place of the new node, and the store with it. -/
def call (a : Arena) : Call → Except Missing (NodeId × Arena)
  | .leaf symbol => .ok (a.leaf symbol)
  | .node symbol rule children => a.node symbol rule children

/-- The store after a call, which is the same if the call failed. -/
def attempt (a : Arena) (c : Call) : Arena :=
  match a.call c with
  | .ok (_, a') => a'
  | .error _ => a

/-- The store that a list of calls makes of an empty one. -/
def ofCalls (calls : List Call) : Arena :=
  calls.foldl attempt empty

theorem ofCalls_append_singleton (calls : List Call) (c : Call) :
    ofCalls (calls ++ [c]) = (ofCalls calls).attempt c :=
  List.foldl_append

/-- A call whose children are there adds its node. -/
theorem call_eq_ok {c : Call} (h : ∀ child ∈ c.made.children, child < a.nodes.size) :
    a.call c = .ok (a.nodes.size, ⟨a.nodes.push c.made⟩) := by
  cases c with
  | leaf symbol => rfl
  | node symbol rule children =>
      have hfind : children.find? (fun id => !decide (id < a.nodes.size)) = none := by
        simpa [Call.made] using h
      rw [call, node, hfind]
      rfl

/-- A call complains about the first of its children that is not there. -/
theorem call_eq_error {c : Call} {before after : List NodeId} {child : NodeId}
    (hchildren : c.made.children = before ++ child :: after)
    (hbefore : ∀ i ∈ before, i < a.nodes.size) (hchild : a.nodes.size ≤ child) :
    a.call c = .error (.child child) := by
  cases c with
  | leaf symbol => simp [Call.made] at hchildren
  | node symbol rule children =>
      obtain rfl : children = before ++ child :: after := hchildren
      have hfind : (before ++ child :: after).find? (fun id => !decide (id < a.nodes.size)) =
          some child := by
        rw [List.find?_eq_some_iff_append]
        exact ⟨by simpa using hchild, before, after, rfl, by simpa using hbefore⟩
      rw [call, node, hfind]

/-- The children of a call are there, or there is a first one that is not. -/
theorem forall_or_exists_missing (a : Arena) (children : List NodeId) :
    (∀ child ∈ children, child < a.nodes.size) ∨
      ∃ before child after, children = before ++ child :: after ∧
        (∀ i ∈ before, i < a.nodes.size) ∧ a.nodes.size ≤ child := by
  cases hfind : children.find? (fun id => !decide (id < a.nodes.size)) with
  | none => exact Or.inl (by simpa using hfind)
  | some child =>
      obtain ⟨hchild, before, after, hchildren, hbefore⟩ := List.find?_eq_some_iff_append.mp hfind
      exact Or.inr ⟨before, child, after, hchildren, by simpa using hbefore, by simpa using hchild⟩

theorem attempt_of_ok {c : Call} (h : ∀ child ∈ c.made.children, child < a.nodes.size) :
    a.attempt c = ⟨a.nodes.push c.made⟩ := by
  rw [attempt, call_eq_ok h]

theorem attempt_of_error {c : Call} {e : Missing} (h : a.call c = .error e) :
    a.attempt c = a := by
  rw [attempt, h]

/-- Every call keeps the store well formed, whether it fails or not. -/
theorem WellFormed.attempt (h : a.WellFormed) (c : Call) : (a.attempt c).WellFormed := by
  rcases a.forall_or_exists_missing c.made.children with
    hthere | ⟨before, child, after, hchildren, hbefore, hchild⟩
  · rw [attempt_of_ok hthere]
    exact h.push hthere
  · rw [attempt_of_error (call_eq_error hchildren hbefore hchild)]
    exact h

theorem wellFormed_ofCalls (calls : List Call) : (ofCalls calls).WellFormed := by
  induction calls using List.reverseRecOn with
  | nil => exact wellFormed_empty
  | append_singleton calls c ih =>
      rw [ofCalls_append_singleton]
      exact ih.attempt c

/-! ### Going down to the children -/

section Recurse

variable {β : Type} {f : Node → List β → Except Missing β}

/-- What is computed for a node from what is computed for its children, from left to right. A child
that does not come before its parent counts as missing. -/
def recurse (a : Arena) (f : Node → List β → Except Missing β) (id : NodeId) :
    Except Missing β := do
  let n ← a.get id
  let below ← n.children.mapM fun child =>
    if _h : child < id then a.recurse f child else .error (.node child)
  f n below
termination_by id

theorem get_eq_ok (hn : a.nodes[id]? = some n) : a.get id = .ok n := by
  rw [get, hn]

theorem get_eq_error (h : a.nodes.size ≤ id) : a.get id = .error (.node id) := by
  rw [get, Array.getElem?_eq_none h]

/-- What is computed for each of several nodes is computed for all of them. -/
theorem mapM_view (view : Tree → β) (compute : NodeId → Except Missing β) {children : List NodeId}
    (h : ∀ child ∈ children, ∀ t, a.trees[child]? = some t → compute child = .ok (view t)) :
    ∀ {ts : List Tree}, children.map (a.trees[·]?) = ts.map some →
      children.mapM compute = .ok (ts.map view) := by
  induction children with
  | nil =>
      intro ts hts
      obtain rfl : ts = [] := by simpa using hts.symm
      rfl
  | cons child children ih =>
      intro ts hts
      obtain ⟨t, ts, rfl, ht, hrest⟩ := List.map_eq_cons_iff.mp hts.symm
      rw [List.mapM_cons, h child (by simp) t ht.symm, ok_bind,
        ih (fun c hc => h c (by simp [hc])) hrest.symm]
      rfl

/-- In a well-formed store the recursion finds every child, and computes what can be read off the
tree below the node. -/
theorem recurse_eq_ok (h : a.WellFormed) {view : Tree → β}
    (hview : ∀ (id : NodeId) (n : Node) (ts : List Tree),
      f n (ts.map view) = .ok (view (.mk id n.symbol n.rule ts))) {t : Tree}
    (ht : a.trees[id]? = some t) : a.recurse f id = .ok (view t) := by
  induction id using Nat.strong_induction_on generalizing t with
  | _ id ih =>
      obtain ⟨n, hn⟩ : ∃ n, a.nodes[id]? = some n :=
        exists_node_of_shape? (Option.map_eq_some_iff.mpr ⟨t, ht, rfl⟩)
      have hlt : ∀ child ∈ n.children, child < id := h id n hn
      obtain rfl := Option.some.inj ((trees_get h hn).symm.trans ht)
      have hbelow := mapM_view view
        (fun child => if _h : child < id then a.recurse f child else .error (.node child))
        (fun child hchild u hu => by
          rw [dif_pos (hlt child hchild)]
          exact ih child (hlt child hchild) hu) (map_trees (h.lt_size hn))
      rw [recurse, get_eq_ok hn, ok_bind, hbelow, ok_bind, hview id]

/-- In a well-formed store the recursion computes what can be read off the tree below a root, and
it complains about a root that is not there. -/
theorem recurse_eq_map_tree (h : a.WellFormed) {view : Tree → β}
    (hview : ∀ (id : NodeId) (n : Node) (ts : List Tree),
      f n (ts.map view) = .ok (view (.mk id n.symbol n.rule ts))) (root : NodeId) :
    a.recurse f root = view <$> a.tree root := by
  rcases Nat.lt_or_ge root a.nodes.size with hroot | hroot
  · obtain ⟨t, ht⟩ := exists_tree hroot
    rw [recurse_eq_ok h hview ht, tree_eq_ok ht]
    rfl
  · rw [recurse, get_eq_error hroot, tree_eq_error hroot]
    rfl

end Recurse

/-! ### The three walks as recursions -/

/-- The leaves below a node. Only a node without a production is a leaf. -/
def leavesOf (n : Node) (below : List (List Symbol)) : Except Missing (List Symbol) :=
  .ok (if n.rule.isNone then [n.symbol] else below.flatten)

/-- The text of a node in brackets. -/
def textOf (n : Node) (below : List Text) : Except Missing Text :=
  .ok (Tree.bracketed n.symbol below)

/-- The text of a node at some depth, with its children one level deeper. -/
def indentedOf (g : Grammar) (n : Node) (below : List (Nat → Except Missing Text)) :
    Except Missing (Nat → Except Missing Text) :=
  .ok fun depth => do
    let here ← Tree.nodeLine g depth n.symbol n.rule
    let rest ← below.mapM (· (depth + 1))
    return here ++ rest.flatten

theorem leavesOf_view (id : NodeId) (n : Node) (ts : List Tree) :
    leavesOf n (ts.map fun t => t.shape.yield) =
      .ok (Tree.mk id n.symbol n.rule ts).shape.yield := by
  cases hrule : n.rule with
  | none => simp [leavesOf, hrule, Tree.shape, ParseTree.yield]
  | some rule =>
      simp [leavesOf, hrule, Tree.shape, ParseTree.yield, Tree.shapes_eq_map,
        ParseTree.yields_eq_flatten, Function.comp_def]

theorem textOf_view (id : NodeId) (n : Node) (ts : List Tree) :
    textOf n (ts.map Tree.toText) = .ok (Tree.mk id n.symbol n.rule ts).toText := by
  rw [textOf, Tree.toText_mk]

/-- The lines of several trees, joined at once or tree by tree. -/
theorem flatten_linesOfAll (g : Grammar) (depth : Nat) (ts : List Tree) :
    List.flatten <$> Tree.linesOfAll g depth ts =
      List.flatten <$> ts.mapM fun t => List.flatten <$> t.lines g depth := by
  induction ts with
  | nil => rfl
  | cons t ts ih =>
      rw [Tree.linesOfAll, List.mapM_cons]
      cases t.lines g depth with
      | error e => rfl
      | ok here =>
          calc List.flatten <$> (do
                let rest ← Tree.linesOfAll g depth ts
                return here ++ rest)
              = (here.flatten ++ ·) <$> (List.flatten <$> Tree.linesOfAll g depth ts) := by
                cases Tree.linesOfAll g depth ts with
                | error e => rfl
                | ok rest => exact congrArg Except.ok List.flatten_append
            _ = (here.flatten ++ ·) <$>
                  (List.flatten <$> ts.mapM fun t => List.flatten <$> t.lines g depth) := by
                rw [ih]
            _ = _ := by
                cases ts.mapM fun t => List.flatten <$> t.lines g depth <;> rfl

theorem indentedOf_view (g : Grammar) (id : NodeId) (n : Node) (ts : List Tree) :
    indentedOf g n (ts.map fun t depth => List.flatten <$> t.lines g depth) =
      .ok fun depth => List.flatten <$> (Tree.mk id n.symbol n.rule ts).lines g depth := by
  rw [indentedOf]
  congr 1
  funext depth
  rw [Tree.lines, List.mapM_map]
  cases Tree.nodeLine g depth n.symbol n.rule with
  | error e => rfl
  | ok here =>
      calc (do
              let rest ← ts.mapM fun t => List.flatten <$> t.lines g (depth + 1)
              return here ++ rest.flatten)
          = (here ++ ·) <$> (List.flatten <$> ts.mapM fun t =>
              List.flatten <$> t.lines g (depth + 1)) := by
            cases ts.mapM fun t => List.flatten <$> t.lines g (depth + 1) <;> rfl
        _ = (here ++ ·) <$> (List.flatten <$> Tree.linesOfAll g (depth + 1) ts) := by
            rw [flatten_linesOfAll]
        _ = _ := by cases Tree.linesOfAll g (depth + 1) ts <;> rfl

/-! ### The walk with a stack -/

/-- One turn of the walk over the pending nodes, the next of them first. A leaf is added to what was
found, and any other node gives way to its children. -/
inductive Pops (a : Arena) : List NodeId × List Symbol → List NodeId × List Symbol → Prop
  | leaf {id : NodeId} {n : Node} (pending : List NodeId) (found : List Symbol)
      (hn : a.nodes[id]? = some n) (hrule : n.rule = none) :
      Pops a (id :: pending, found) (pending, found ++ [n.symbol])
  | node {id : NodeId} {n : Node} {rule : Nat} (pending : List NodeId) (found : List Symbol)
      (hn : a.nodes[id]? = some n) (hrule : n.rule = some rule) :
      Pops a (id :: pending, found) (n.children ++ pending, found)

/-- There is only one way for the walk to go on. -/
theorem Pops.unique {c d d' : List NodeId × List Symbol} (h : a.Pops c d) (h' : a.Pops c d') :
    d = d' := by
  cases h with
  | leaf pending found hn hrule =>
      cases h' with
      | leaf _ _ hn' _ => rw [Option.some.inj (hn.symm.trans hn')]
      | node _ _ hn' hrule' =>
          cases hn.symm.trans hn'
          cases hrule.symm.trans hrule'
  | node pending found hn hrule =>
      cases h' with
      | leaf _ _ hn' hrule' =>
          cases hn.symm.trans hn'
          cases hrule.symm.trans hrule'
      | node _ _ hn' _ => rw [Option.some.inj (hn.symm.trans hn')]

/-- Nodes that are each worked off are worked off one after the other. -/
theorem pops_nodes {ids : List NodeId} (pending : List NodeId)
    (h : ∀ id ∈ ids, ∀ t, a.shape? id = some t → ∀ (pending : List NodeId) (found : List Symbol),
      Relation.ReflTransGen a.Pops (id :: pending, found) (pending, found ++ t.yield)) :
    ∀ {ts : List ParseTree} (found : List Symbol), ids.map a.shape? = ts.map some →
      Relation.ReflTransGen a.Pops (ids ++ pending, found)
        (pending, found ++ ParseTree.yields ts) := by
  induction ids with
  | nil =>
      intro ts found hts
      obtain rfl : ts = [] := by simpa using hts.symm
      rw [ParseTree.yields, List.append_nil]
      exact .refl
  | cons id ids ih =>
      intro ts found hts
      obtain ⟨t, ts, rfl, ht, hrest⟩ := List.map_eq_cons_iff.mp hts.symm
      have hfirst := h id List.mem_cons_self t ht.symm (ids ++ pending) found
      have hlater := ih (fun i hi => h i (List.mem_cons_of_mem _ hi)) (found ++ t.yield) hrest.symm
      rw [ParseTree.yields, ← List.append_assoc]
      exact hfirst.trans hlater

/-- A pending node is worked off, and what is found on the way are the leaves below it. -/
theorem pops_node (h : a.WellFormed) {t : ParseTree} (ht : a.shape? id = some t)
    (pending : List NodeId) (found : List Symbol) :
    Relation.ReflTransGen a.Pops (id :: pending, found) (pending, found ++ t.yield) := by
  induction id using Nat.strong_induction_on generalizing t pending found with
  | _ id ih =>
      obtain ⟨n, hn⟩ := exists_node_of_shape? ht
      cases hrule : n.rule with
      | none =>
          obtain rfl := Option.some.inj ((shape?_of_leaf h hn hrule).symm.trans ht)
          exact .single (.leaf pending found hn hrule)
      | some rule =>
          obtain ⟨ts, hts⟩ := exists_map_shape? h hn
          obtain rfl := Option.some.inj ((shape?_of_node h hn hrule hts).symm.trans ht)
          have hbelow := pops_nodes pending
            (fun child hchild u hu => ih child (h id n hn child hchild) hu) found hts
          exact .head (.node pending found hn hrule) hbelow

/-- If the walk can work off all pending nodes, then it does, however far it has got. -/
theorem pops_ends {c d : List NodeId × List Symbol} {leaves : List Symbol}
    (hend : Relation.ReflTransGen a.Pops c ([], leaves)) (hd : Relation.ReflTransGen a.Pops c d) :
    Relation.ReflTransGen a.Pops d ([], leaves) := by
  have hunique : Relator.RightUnique a.Pops := fun _ _ _ h h' => h.unique h'
  rcases Relation.ReflTransGen.total_of_right_unique hunique hend hd with hlater | hlater
  · -- nothing is pending, so the walk cannot have gone on
    rcases hlater.cases_head with rfl | ⟨next, hnext, -⟩
    · exact .refl
    · cases hnext
  · exact hlater

/-! ### Every walk of a store -/

/-- The leaves that the walk with a stack collects are those of the tree. -/
theorem leaves_eq_map_tree (h : a.WellFormed) (root : NodeId) :
    a.leaves root = (fun t => t.shape.yield) <$> a.tree root := by
  rcases Nat.lt_or_ge root a.nodes.size with hroot | hroot
  · obtain ⟨t, ht⟩ := exists_tree hroot
    rw [tree_eq_ok ht]
    exact leaves_eq_yield h (Option.map_eq_some_iff.mpr ⟨t, ht, rfl⟩)
  · rw [leaves, collectLeaves, Array.getElem?_eq_none hroot, tree_eq_error hroot]
    rfl

/-- The indented text is made of the lines of the tree, from depth 0 on. -/
theorem indented_eq_map_tree (g : Grammar) (root : NodeId) :
    a.tree root >>= Tree.indented g =
      (fun t depth => List.flatten <$> t.lines g depth) <$> a.tree root >>= (· 0) := by
  cases a.tree root <;> rfl

/-- After any calls, children come before their parents. The text in brackets, the leaves and the
indented text are those of the recursion over the children, for any root. From a root that is there
they are made without an error, if the grammar has the productions of the nodes for the indented
text, and the walk with a stack ends with the leaves, however far it has got. One more call whose
children are there adds its node. Any other call complains about the first child that is not there,
and changes nothing. -/
theorem ofCalls_walks (calls : List Call) :
    ∃ a, ofCalls calls = a ∧
      (∀ (id : NodeId) (n : Node), a.nodes[id]? = some n → ∀ child ∈ n.children, child < id) ∧
      (∀ root, Tree.toText <$> a.tree root = a.recurse textOf root ∧
        a.leaves root = a.recurse leavesOf root ∧
        ∀ g, a.tree root >>= Tree.indented g = a.recurse (indentedOf g) root >>= (· 0)) ∧
      (∀ root < a.nodes.size, (∃ text, Tree.toText <$> a.tree root = .ok text) ∧
        (∀ g, a.Names g → ∃ text, a.tree root >>= Tree.indented g = .ok text) ∧
        ∃ leaves, a.leaves root = .ok leaves ∧
          ∀ c, Relation.ReflTransGen a.Pops ([root], []) c →
            Relation.ReflTransGen a.Pops c ([], leaves)) ∧
      (∀ c : Call, (∀ child ∈ c.made.children, child < a.nodes.size) →
        a.call c = .ok (a.nodes.size, ⟨a.nodes.push c.made⟩) ∧
          ofCalls (calls ++ [c]) = ⟨a.nodes.push c.made⟩) ∧
      ∀ (c : Call) (before after : List NodeId) (child : NodeId),
        c.made.children = before ++ child :: after → (∀ i ∈ before, i < a.nodes.size) →
          a.nodes.size ≤ child →
            a.call c = .error (.child child) ∧ ofCalls (calls ++ [c]) = a := by
  have h := wellFormed_ofCalls calls
  refine ⟨_, rfl, h, fun root => ⟨?_, ?_, fun g => ?_⟩, fun root hroot => ?_, fun c hthere => ?_,
    fun c before after child hchildren hbefore hchild => ?_⟩
  · exact (recurse_eq_map_tree h textOf_view root).symm
  · rw [recurse_eq_map_tree h leavesOf_view, leaves_eq_map_tree h]
  · rw [recurse_eq_map_tree h (indentedOf_view g), indented_eq_map_tree]
  · obtain ⟨t, ht⟩ := exists_tree hroot
    have hshape : (ofCalls calls).shape? root = some t.shape :=
      Option.map_eq_some_iff.mpr ⟨t, ht, rfl⟩
    rw [tree_eq_ok ht]
    exact ⟨⟨t.toText, rfl⟩, fun g hnames => (hnames.tree (tree_eq_ok ht)).indented_eq_ok,
      t.shape.yield, leaves_eq_yield h hshape, fun c => pops_ends (pops_node h hshape [] [])⟩
  · exact ⟨call_eq_ok hthere, (ofCalls_append_singleton calls c).trans (attempt_of_ok hthere)⟩
  · have hcall := call_eq_error hchildren hbefore hchild
    exact ⟨hcall, (ofCalls_append_singleton calls c).trans (attempt_of_error hcall)⟩

/-- A node is the child of the root twice, and its leaf is met twice. The call before the last one
names a node that there is not. -/
theorem ofCalls_walks_shared :
    (ofCalls [.leaf "x", .node "T" 1 [0], .node "E" 2 [1, 7], .node "E" 2 [1, 1]]).leaves 2 =
        .ok ["x", "x"] ∧
      Relation.ReflTransGen
        (ofCalls [.leaf "x", .node "T" 1 [0], .node "E" 2 [1, 7], .node "E" 2 [1, 1]]).Pops
        ([2], []) ([], ["x", "x"]) := by
  obtain ⟨a, ha, -, -, hroots, -⟩ :=
    ofCalls_walks [.leaf "x", .node "T" 1 [0], .node "E" 2 [1, 7], .node "E" 2 [1, 1]]
  have hleaves : a.leaves 2 = .ok ["x", "x"] := ha ▸ rfl
  have hroot : 2 < a.nodes.size := ha ▸ by decide
  obtain ⟨-, -, leaves, heq, hpops⟩ := hroots 2 hroot
  obtain rfl := Except.ok.inj (hleaves.symm.trans heq)
  exact ⟨ha ▸ hleaves, ha ▸ hpops _ .refl⟩

end Arena

end ShiftReduce
