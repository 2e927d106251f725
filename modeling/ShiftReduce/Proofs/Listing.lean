import ShiftReduce.Drawing
import ShiftReduce.Generation.Listing
import ShiftReduce.Request
import ShiftReduce.Proofs.Engine.Counter
import ShiftReduce.Proofs.Soundness

/-!
# ShiftReduce.Proofs.Listing

**Whatever was generated or parsed can be written out.** The listing and the drawings look up
productions, states and rows, and each look-up finds something: the items of the automaton belong to
the grammar, there is a row for every state, and every node that a run makes names a production
(`Arena.Names`).
-/

namespace ShiftReduce

/-! ### States and rows -/

namespace Generation

variable {gen : Generation} {g : Grammar} {mode : Mode}

/-- The texts that a generation is written with look up its own states and rows. -/
structure Complete (gen : Generation) : Prop where
  /-- The items of its states name productions of its grammar. -/
  items : ∀ {n : Nat} {items : ItemSet}, gen.automaton.states[n]? = some items →
    ∀ i ∈ items.toList, ∃ p, gen.grammar.rule? i.rule = some p
  /-- Its table has a row for every state. -/
  rows : gen.table.rows.size = gen.automaton.states.size

theorem complete_of_ofGrammar {log : LogOptions} {text : Text}
    (h : Generation.ofGrammar g mode log = .ok (gen, text)) : gen.Complete := by
  have hdescribes := describes_of_ofGrammar h
  refine ⟨fun {n items} hn i hi => ?_, ?_⟩
  · obtain ⟨p, hp, -⟩ := hdescribes.canonical.proper hn i (Std.ExtTreeSet.mem_toList.mp hi)
    exact ⟨p, hdescribes.grammar_eq ▸ hp⟩
  · obtain ⟨t₁, t, hbuild, hhistory, hsame, -⟩ := Table.build_history hdescribes.canonical
      (Table.reductionLookaheads_eq g mode)
    cases (ofGrammar_inv h).2.symm.trans hbuild
    rw [hsame.size, hhistory.size]
    simp [Table.empty]

namespace Complete

variable {n : Nat} {items : ItemSet}

theorem itemText_eq_ok (h : gen.Complete) (hn : gen.automaton.states[n]? = some items) {i : Item}
    (hi : i ∈ items.toList) : ∃ text, gen.grammar.itemText i = .ok text := by
  obtain ⟨p, hp⟩ := h.items hn i hi
  exact ⟨_, by rw [Grammar.itemText, Grammar.rule_eq_ok hp]; rfl⟩

theorem row_eq_ok (h : gen.Complete) (hn : n < gen.automaton.states.size) :
    ∃ row, gen.table.row n = .ok row :=
  ⟨_, Table.row_eq_ok (h.rows ▸ hn)⟩

theorem stateListing_eq_ok (h : gen.Complete) (hn : gen.automaton.states[n]? = some items) :
    ∃ text, gen.stateListing n items = .ok text := by
  obtain ⟨lines, hlines⟩ : ∃ lines, items.toList.mapM (itemLine gen.grammar) = .ok lines := by
    refine exists_mapM_eq_ok fun i hi => ?_
    obtain ⟨text, htext⟩ := h.itemText_eq_ok hn hi
    exact ⟨_, by rw [itemLine, htext]; rfl⟩
  obtain ⟨row, hrow⟩ := h.row_eq_ok (Array.getElem?_eq_some_iff.mp hn).1
  exact ⟨_, by rw [stateListing, hlines, Table.rowListing, hrow]; rfl⟩

theorem stateBlock_eq_ok (h : gen.Complete) : ∃ text, gen.stateBlock = .ok text := by
  obtain ⟨states, hstates⟩ : ∃ states, gen.automaton.states.toList.zipIdx.mapM
      (fun q => gen.stateListing q.2 q.1) = .ok states := by
    refine exists_mapM_eq_ok fun q hq => ?_
    have hn := List.mem_zipIdx_iff_getElem?.mp hq
    exact h.stateListing_eq_ok (by simpa using hn)
  exact ⟨_, bind_eq_ok.mpr ⟨states, hstates, rfl⟩⟩

theorem listing_eq_ok (h : gen.Complete) (showStates : Bool) :
    ∃ text, gen.listing showStates = .ok text := by
  obtain ⟨states, hstates⟩ := h.stateBlock_eq_ok
  cases showStates with
  | true => exact ⟨_, by rw [listing, if_pos rfl, hstates]; rfl⟩
  | false => exact ⟨_, rfl⟩

theorem stateLabels_eq_ok (h : gen.Complete) (hn : n < gen.automaton.states.size) :
    ∃ labels, gen.stateLabels n = .ok labels := by
  have hitems : gen.automaton.states[n]? = some gen.automaton.states[n] :=
    Array.getElem?_eq_getElem hn
  rw [stateLabels, Automaton.state, hitems]
  exact exists_mapM_eq_ok fun i hi => h.itemText_eq_ok hitems hi

theorem stateLine_eq_ok (h : gen.Complete) (hn : n < gen.automaton.states.size) :
    ∃ line, Drawing.stateLine gen n = .ok line := by
  obtain ⟨labels, hlabels⟩ := h.stateLabels_eq_ok hn
  exact ⟨_, by rw [Drawing.stateLine, hlabels]; rfl⟩

theorem drawing_eq_ok (h : gen.Complete) : ∃ text, Drawing.automaton gen = .ok text := by
  obtain ⟨states, hstates⟩ : ∃ states,
      (List.range gen.automaton.states.size).mapM (Drawing.stateLine gen) = .ok states :=
    exists_mapM_eq_ok fun n hn => h.stateLine_eq_ok (List.mem_range.mp hn)
  obtain ⟨edges, hedges⟩ : ∃ edges, (List.range gen.automaton.states.size).mapM
      (fun n => Drawing.rowLines n <$> Drawing.rowOf gen n) = .ok edges := by
    refine exists_mapM_eq_ok fun n hn => ?_
    obtain ⟨row, hrow⟩ := h.row_eq_ok (List.mem_range.mp hn)
    exact ⟨_, by rw [Drawing.rowOf, hrow]; rfl⟩
  exact ⟨_, by rw [Drawing.automaton, hstates, ok_bind, hedges]; rfl⟩

end Complete

end Generation

/-! ### Trees -/

namespace Tree

variable {g : Grammar}

/-- A node names a production, unless it is a leaf, and so does every node below it. -/
inductive Names (g : Grammar) : Tree → Prop
  | mk {id : NodeId} {symbol : Symbol} {rule : Option Nat} {children : List Tree}
      (hrule : ∀ r ∈ rule, ∃ p, g.rule? r = some p) (hchildren : ∀ t ∈ children, Names g t) :
      Names g (.mk id symbol rule children)

theorem nodeLine_eq_ok {rule : Option Nat} (h : ∀ r ∈ rule, ∃ p, g.rule? r = some p) (depth : Nat)
    (symbol : Symbol) : ∃ line, nodeLine g depth symbol rule = .ok line := by
  cases rule with
  | none => exact ⟨_, rfl⟩
  | some r =>
      obtain ⟨p, hp⟩ := h r rfl
      exact ⟨_, by rw [nodeLine, Grammar.rule_eq_ok hp]; rfl⟩

theorem linesOfAll_eq_ok {depth : Nat} {ts : List Tree}
    (h : ∀ t ∈ ts, ∃ lines, t.lines g depth = .ok lines) :
    ∃ lines, linesOfAll g depth ts = .ok lines := by
  induction ts with
  | nil => exact ⟨_, rfl⟩
  | cons t ts ih =>
      obtain ⟨here, hhere⟩ := h t (by simp)
      obtain ⟨rest, hrest⟩ := ih fun u hu => h u (by simp [hu])
      exact ⟨_, by rw [linesOfAll, hhere, ok_bind, hrest]; rfl⟩

theorem Names.lines_eq_ok {t : Tree} (h : t.Names g) :
    ∀ depth, ∃ lines, t.lines g depth = .ok lines := by
  induction h with
  | @mk id symbol rule children hrule _ ih =>
      intro depth
      obtain ⟨here, hhere⟩ := nodeLine_eq_ok hrule depth symbol
      obtain ⟨below, hbelow⟩ := linesOfAll_eq_ok fun t ht => ih t ht (depth + 1)
      exact ⟨_, by rw [Tree.lines, hhere, ok_bind, hbelow]; rfl⟩

theorem Names.indented_eq_ok {t : Tree} (h : t.Names g) : ∃ text, t.indented g = .ok text := by
  obtain ⟨lines, hlines⟩ := h.lines_eq_ok 0
  exact ⟨_, by rw [indented, hlines]; rfl⟩

end Tree

namespace Arena

variable {g : Grammar} {a : Arena}

/-- Every node names a production, unless it is a leaf. -/
def Names (g : Grammar) (a : Arena) : Prop :=
  ∀ n ∈ a.nodes, ∀ r ∈ n.rule, ∃ p, g.rule? r = some p

theorem names_empty (g : Grammar) : Names g empty := by
  simp [Names, empty]

theorem Names.push (h : a.Names g) {n : Node} (hn : ∀ r ∈ n.rule, ∃ p, g.rule? r = some p) :
    Names g ⟨a.nodes.push n⟩ := by
  intro m hm
  rcases Array.mem_push.mp hm with hm | rfl
  · exact h m hm
  · exact hn

theorem Names.leaf (h : a.Names g) (s : Symbol) : (a.leaf s).2.Names g :=
  h.push fun _ hr => by cases hr

theorem Names.node (h : a.Names g) {s : Symbol} {rule : Nat} {children : List NodeId}
    {id : NodeId} {a' : Arena} (hp : ∃ p, g.rule? rule = some p)
    (ha' : a.node s rule children = .ok (id, a')) : a'.Names g := by
  unfold Arena.node at ha'
  split at ha'
  · cases ha'
  · cases ha'
    exact h.push fun r hr => by cases hr; exact hp

/-- The trees of a store name productions, because each is made from earlier ones. -/
theorem Names.tree (h : a.Names g) {root : NodeId} {t : Tree} (ht : a.tree root = .ok t) :
    t.Names g := by
  have htrees : ∀ u ∈ a.trees, u.Names g := by
    unfold trees
    refine Array.foldl_induction (fun _ (trees : Array Tree) => ∀ u ∈ trees, u.Names g)
      (by simp) ?_
    intro i trees htrees u hu
    rcases Array.mem_push.mp hu with hu | rfl
    · exact htrees u hu
    · refine .mk (h _ (Array.getElem_mem i.isLt)) fun child hchild => ?_
      obtain ⟨id, -, hid⟩ := List.mem_filterMap.mp hchild
      exact htrees child (Array.mem_of_getElem? hid)
  unfold Arena.tree at ht
  split at ht
  · rename_i u hu
    cases ht
    exact htrees _ (Array.mem_of_getElem? hu)
  · cases ht

end Arena

/-! ### Runs -/

/-- The configuration after the move names productions, if there is one. -/
def Move.Names (g : Grammar) : Move → Prop
  | .shift _ _ next | .reduce _ _ next => next.arena.Names g
  | .accept _ | .fail _ => True

namespace Config

variable {g : Grammar} {t : Table} {c : Config} {state : Nat} {token : Symbol} {move : Move}

/-- A reduction makes a node for its production. -/
theorem names_of_reduce (h : c.arena.Names g) {rule : Nat}
    (hmove : c.reduce g t state token rule = .ok move) : move.Names g := by
  unfold reduce at hmove
  split at hmove
  · cases hmove
    trivial
  · rename_i p hp
    dsimp only at hmove
    split at hmove
    · cases hmove
      trivial
    split at hmove
    · cases hmove
      trivial
    split at hmove
    · cases hmove
      trivial
    obtain ⟨⟨children, roots⟩, -, hmove⟩ := bind_eq_ok.mp hmove
    obtain ⟨⟨node, arena⟩, hnode, hmove⟩ := bind_eq_ok.mp hmove
    cases hmove
    exact h.node ⟨p, hp⟩ hnode

theorem names_of_move (h : c.arena.Names g) {rest : List Symbol} {action : Option Action}
    (hmove : c.move g t state token rest action = .ok move) : move.Names g := by
  rcases action with _ | (_ | rule | target | _)
  · cases hmove
    trivial
  · have haccept : c.accept state token = move := Except.ok.inj hmove
    unfold accept at haccept
    split at haccept
    · exact haccept ▸ trivial
    · exact haccept ▸ trivial
  · exact names_of_reduce h hmove
  · cases hmove
    exact h.leaf token
  · cases hmove
    trivial

theorem names_of_turn {number : Nat} {step : TraceStep} {next : Config} (h : c.arena.Names g)
    (hturn : c.turn g t number = .ok (.moved step next)) : next.arena.Names g := by
  unfold turn at hturn
  split at hturn
  · cases hturn
  · cases hturn
  · obtain ⟨move, hmove, hturn⟩ := bind_eq_ok.mp hturn
    have hnames := names_of_move h hmove
    cases move <;> cases hturn
    · exact hnames
    · exact hnames

end Config

/-- A run makes only nodes that name productions. -/
theorem Engine.names_of_loop {g : Grammar} {t : Table} {limit number : UInt64} {c : Config}
    {trace : Array TraceStep} {answer : Except Missing ParseResult}
    (h : loop g t limit trace number c = some answer) :
    c.arena.Names g → ∀ r, answer = .ok r → r.arena.Names g := by
  refine loop.partial_correctness g t limit
    (fun _ _ c answer => c.arena.Names g → ∀ r, answer = .ok r → r.arena.Names g) ?_
    trace number c answer h
  intro loop ih trace number c answer h hnames r hr
  subst hr
  split at h
  · cases h
    exact hnames
  split at h
  · cases h
  · rename_i step next hturn
    exact ih _ _ _ _ h (Config.names_of_turn hnames hturn) r rfl
  · cases h
    exact hnames
  · cases h
    exact hnames

/-! ### Answers -/

theorem ParseResult.outcome_of_root? {r : ParseResult} {root : NodeId} (h : r.root? = some root) :
    r.outcome = .ok root := by
  unfold root? at h
  cases houtcome : r.outcome with
  | error failure => simp [houtcome, Except.toOption] at h
  | ok id => simpa [houtcome, Except.toOption] using h

/-- The root of an answer, if it has one, is the root of a tree that names productions. -/
def Response.Rooted (r : Response) (g : Grammar) : Prop :=
  ∀ arena root, r.root? = some (arena, root) → ∃ tree, arena.tree root = .ok tree ∧ tree.Names g

/-- The answer to a request has a tree if it has a root. -/
theorem Generation.Describes.rooted_ofInput {gen : Generation} {g : Grammar} {mode : Mode}
    (h : gen.Describes g mode) {limit : UInt64} {input : Text} {r : Response}
    (hr : Response.ofInput gen limit input = some (.ok r)) : r.Rooted g := by
  unfold Response.ofInput at hr
  split at hr
  · split at hr
    · cases hr
      exact fun _ _ hroot => by cases hroot
    · rename_i tokens htokens
      obtain ⟨answer, hanswer, hr⟩ := Option.map_eq_some_iff.mp hr
      rw [h.grammar_eq] at hanswer
      obtain ⟨result, bound, rfl, hends⟩ := Engine.execute_ends hanswer
      cases hr
      intro arena root hroot
      obtain ⟨root', hroot', heq⟩ := Option.map_eq_some_iff.mp hroot
      cases heq
      obtain ⟨w, rest, tree, -, -, htree, -⟩ :=
        h.parses_of_ends hends (ParseResult.outcome_of_root? hroot')
      have hnames := Engine.names_of_loop hanswer (Arena.names_empty g) result rfl
      exact ⟨tree, htree, hnames.tree htree⟩
  · cases hr
    exact fun _ _ hroot => by cases hroot

namespace Response.Rooted

variable {g : Grammar} {r : Response}

theorem toText_eq_ok (h : r.Rooted g) (showTrace : Bool) :
    ∃ text, r.toText g showTrace = .ok text := by
  have htree : ∃ tree?, r.tree? = .ok tree? ∧ ∀ tree ∈ tree?, tree.Names g := by
    unfold tree?
    cases hroot : r.root? with
    | none => exact ⟨none, rfl, by simp⟩
    | some q =>
        obtain ⟨arena, root⟩ := q
        obtain ⟨tree, htree, hnames⟩ := h arena root hroot
        exact ⟨some tree, by simp only [htree]; rfl, by simpa using hnames⟩
  obtain ⟨tree?, htree, hnames⟩ := htree
  unfold Response.toText
  split
  · exact ⟨_, rfl⟩
  · rw [htree, ok_bind]
    cases tree? with
    | none => exact ⟨_, rfl⟩
    | some tree =>
        obtain ⟨indented, hindented⟩ := (hnames tree rfl).indented_eq_ok
        cases showTrace with
        | true => exact ⟨_, by simp only [acceptedText, if_pos, hindented]; rfl⟩
        | false => exact ⟨_, rfl⟩

theorem drawing_eq_ok (h : r.Rooted g) {arena : Arena} {root : NodeId}
    (hroot : r.root? = some (arena, root)) : ∃ text, Drawing.tree arena root = .ok text := by
  obtain ⟨tree, htree, -⟩ := h arena root hroot
  exact ⟨_, by rw [Drawing.tree, htree]; rfl⟩

end Response.Rooted

end ShiftReduce
