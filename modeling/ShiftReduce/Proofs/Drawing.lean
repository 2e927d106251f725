import ShiftReduce.Proofs.Automaton.Collection
import ShiftReduce.Proofs.Drawing.Reading
import ShiftReduce.Proofs.Drawing.Rows
import ShiftReduce.Proofs.Listing
import ShiftReduce.Proofs.Table.Content

/-!
# ShiftReduce.Proofs.Drawing

**What the drawing of an automaton shows.** It is made from the table, row by row, and a viewer of
it shows a node for every state and the edges of the drawn rows
(`Generation.Complete.read?_drawing`).

A generated table has lost no transition to a conflict, since nothing displaces a shift but accept,
which stands on the end mark only. Hence the solid edges that a viewer shows are the transitions of
the automaton (`Generation.ofGrammar_drawing`).

The label `(any)` of a reduction says less than it seems to. It is drawn whenever some cell of an
LR(0) row reduces, and the cells that do not are those in which the state shifts or accepts
(`Generation.any_label_iff`). In a table without conflicts there are none.
-/

namespace ShiftReduce

/-! ### The whole drawing -/

namespace Drawing

/-- The rows of a table as they are drawn. -/
def rows (gen : Generation) : List DrawnRow :=
  gen.table.rows.toList.map (DrawnRow.ofRow gen.mode)

/-- The solid edges, each with the row that it leaves. -/
def solid (rows : List DrawnRow) : List (Nat × DrawnEdge) :=
  rows.zipIdx.flatMap fun (d, n) => d.moves.map (n, ·)

/-- The labels of the solid edges, each from its row to the end of its edge. -/
def solidEdges (rows : List DrawnRow) : List Transition :=
  (solid rows).flatMap fun (n, e) => e.labels.map fun s => ⟨n, s, e.target⟩

/-- The edges to `acc`: their rows and their lookaheads. -/
def acceptEdges (rows : List DrawnRow) : List (Nat × Symbol) :=
  rows.zipIdx.flatMap fun (d, n) => d.accepting.map (n, ·)

/-- What a viewer shows of the states, by their items. -/
def nodes (items : List (List Text)) : List Statement :=
  items.zipIdx.map fun (items, n) => .node n (stateLabel n items)

/-- What a viewer shows of the rows. -/
def edges (rows : List DrawnRow) : List Statement :=
  rows.zipIdx.flatMap fun (d, n) => rowStatements n d

variable {rows : List DrawnRow} {n m : Nat} {s : Symbol}

theorem solidEdges_eq (rows : List DrawnRow) : solidEdges rows =
    rows.zipIdx.flatMap fun (d, n) =>
      (DrawnEdge.labelled d.moves).map fun (s, m) => ⟨n, s, m⟩ := by
  rw [solidEdges, solid, List.flatMap_assoc]
  refine List.flatMap_congr fun q _ => ?_
  simp only [DrawnEdge.labelled, List.map_flatMap, List.flatMap_map, List.map_map]
  rfl

theorem mem_solidEdges :
    ⟨n, s, m⟩ ∈ solidEdges rows ↔ ∃ d, rows[n]? = some d ∧ (s, m) ∈ DrawnEdge.labelled d.moves := by
  simp only [solidEdges_eq, List.mem_flatMap, Prod.exists, List.mem_zipIdx_iff_getElem?,
    List.mem_map, Transition.mk.injEq]
  constructor
  · rintro ⟨d, _, hd, _, _, hmem, rfl, rfl, rfl⟩
    exact ⟨d, hd, hmem⟩
  · rintro ⟨d, hd, hmem⟩
    exact ⟨d, n, hd, s, m, hmem, rfl, rfl, rfl⟩

theorem mem_acceptEdges : (n, s) ∈ acceptEdges rows ↔ ∃ d, rows[n]? = some d ∧ s ∈ d.accepting := by
  simp only [acceptEdges, List.mem_flatMap, Prod.exists, List.mem_zipIdx_iff_getElem?, List.mem_map,
    Prod.mk.injEq]
  constructor
  · rintro ⟨d, _, hd, _, hmem, rfl, rfl⟩
    exact ⟨d, hd, hmem⟩
  · rintro ⟨d, hd, hmem⟩
    exact ⟨d, n, hd, s, hmem, rfl, rfl⟩

theorem nodup_solidEdges (h : ∀ d ∈ rows, DrawnEdge.Separate d.moves) :
    (solidEdges rows).Nodup := by
  rw [solidEdges_eq]
  refine nodup_flatMap_zipIdx Transition.source (fun d n t ht => ?_) fun d hd n => ?_
  · obtain ⟨q, -, rfl⟩ := List.mem_map.mp ht
    rfl
  · exact (h d hd).nodup_labelled.map fun q q' heq => by
      cases q
      cases q'
      cases heq
      rfl

theorem nodup_acceptEdges (h : ∀ d ∈ rows, d.accepting.Nodup) : (acceptEdges rows).Nodup := by
  refine nodup_flatMap_zipIdx Prod.fst (fun d n q hq => ?_) fun d hd n => ?_
  · obtain ⟨s, -, rfl⟩ := List.mem_map.mp hq
    rfl
  · exact (h d hd).map fun s s' heq => congrArg Prod.snd heq

/-- No two solid edges lead from one row to one state. -/
theorem nodup_solid (h : ∀ d ∈ rows, DrawnEdge.Separate d.moves) :
    ((solid rows).map fun q => (q.1, q.2.target)).Nodup := by
  rw [solid, List.map_flatMap]
  refine nodup_flatMap_zipIdx Prod.fst (fun d n q hq => ?_) fun d hd n => ?_
  · obtain ⟨p, hp, rfl⟩ := List.mem_map.mp hq
    obtain ⟨e, -, rfl⟩ := List.mem_map.mp hp
    rfl
  · rw [List.map_map]
    exact List.Nodup.of_map Prod.snd (by simpa [Function.comp_def] using (h d hd).targets)

/-! ### What is shown -/

theorem filterMap_nodes_solid? (items : List (List Text)) :
    (nodes items).filterMap Statement.solid? = [] := by
  simp [nodes, List.filterMap_map, Statement.solid?, Function.comp_def]

theorem filterMap_nodes_accept? (items : List (List Text)) :
    (nodes items).filterMap Statement.accept? = [] := by
  simp [nodes, List.filterMap_map, Statement.accept?, Function.comp_def]

/-- The solid edges that are shown are those of the rows, with their labels in one text. -/
theorem filterMap_edges_solid? (rows : List DrawnRow) :
    (edges rows).filterMap Statement.solid? =
      (solid rows).map fun (n, e) => (n, e.target, Text.join "," e.labels) := by
  rw [edges, solid, List.filterMap_flatMap, List.map_flatMap]
  refine List.flatMap_congr fun q _ => ?_
  simp [rowStatements, List.filterMap_map, Statement.solid?, Function.comp_def]

/-- The edges to `acc` that are shown are those of the rows. -/
theorem filterMap_edges_accept? (rows : List DrawnRow) :
    (edges rows).filterMap Statement.accept? = acceptEdges rows := by
  rw [edges, acceptEdges, List.filterMap_flatMap]
  refine List.flatMap_congr fun q _ => ?_
  simp [rowStatements, List.filterMap_map, Statement.accept?, Function.comp_def]

/-- A dashed edge leads to each production that an edge of its row reduces by. -/
theorem mem_edges_production {r : Nat} {label : Text} :
    .edge n (.production r) label true ∈ edges rows ↔ ∃ d, rows[n]? = some d ∧
      ∃ e ∈ d.reductions, e.target = r ∧ Text.join "," e.labels = label := by
  simp only [edges, rowStatements, List.mem_flatMap, Prod.exists, List.mem_zipIdx_iff_getElem?,
    List.mem_append, List.mem_map]
  constructor
  · rintro ⟨d, n', hd, (⟨_, -, heq⟩ | ⟨e, he, heq⟩) | ⟨_, -, heq⟩⟩
    · cases heq
    · cases heq
      exact ⟨d, hd, e, he, rfl, rfl⟩
    · cases heq
  · rintro ⟨d, hd, e, he, rfl, rfl⟩
    exact ⟨d, n, hd, Or.inl (Or.inr ⟨e, he, rfl⟩)⟩

theorem production_notMem_nodes {items : List (List Text)} {r : Nat} {label : Text} :
    .edge n (.production r) label true ∉ nodes items := by
  simp [nodes]

/-! ### Tables -/

variable {gen : Generation}

theorem getElem?_rows_eq_some {d : DrawnRow} :
    (Drawing.rows gen)[n]? = some d ↔
      ∃ row, gen.table.rows[n]? = some row ∧ DrawnRow.ofRow gen.mode row = d := by
  simp [Drawing.rows]

/-- The solid edges are drawn from the cells that shift and from those that go to a state. -/
theorem mem_solidEdges_rows : ⟨n, s, m⟩ ∈ solidEdges (Drawing.rows gen) ↔
    gen.table.action? n s = some (.shift m) ∨
      gen.table.goto? n s = some m ∧ s ≠ Symbol.goal := by
  simp only [mem_solidEdges, getElem?_rows_eq_some, Table.action?, Table.goto?,
    Option.bind_eq_some_iff]
  constructor
  · rintro ⟨_, ⟨row, hrow, rfl⟩, hmem⟩
    rw [DrawnRow.moves_ofRow, DrawnEdge.mem_labelled_group, Row.mem_moves] at hmem
    exact hmem.imp (fun h => ⟨row, hrow, h⟩) fun h => ⟨⟨row, hrow, h.1⟩, h.2⟩
  · intro h
    have hrow : ∃ row, gen.table.rows[n]? = some row ∧ (s, m) ∈ row.moves := by
      rcases h with ⟨row, hrow, h⟩ | ⟨⟨row, hrow, h⟩, hs⟩
      · exact ⟨row, hrow, Row.mem_moves.mpr (Or.inl h)⟩
      · exact ⟨row, hrow, Row.mem_moves.mpr (Or.inr ⟨h, hs⟩)⟩
    obtain ⟨row, hrow, hmem⟩ := hrow
    refine ⟨_, ⟨row, hrow, rfl⟩, ?_⟩
    rwa [DrawnRow.moves_ofRow, DrawnEdge.mem_labelled_group]

/-- The edges to `acc` are drawn from the cells that accept. -/
theorem mem_acceptEdges_rows :
    (n, s) ∈ acceptEdges (Drawing.rows gen) ↔ gen.table.action? n s = some .accept := by
  simp only [mem_acceptEdges, getElem?_rows_eq_some, Table.action?, Option.bind_eq_some_iff]
  constructor
  · rintro ⟨_, ⟨row, hrow, rfl⟩, hmem⟩
    rw [DrawnRow.accepting_ofRow] at hmem
    exact ⟨row, hrow, Row.mem_acceptsOf.mp hmem⟩
  · rintro ⟨row, hrow, h⟩
    refine ⟨_, ⟨row, hrow, rfl⟩, ?_⟩
    rw [DrawnRow.accepting_ofRow]
    exact Row.mem_acceptsOf.mpr h

theorem separate_moves {d : DrawnRow} (h : d ∈ Drawing.rows gen) :
    DrawnEdge.Separate d.moves := by
  obtain ⟨row, -, rfl⟩ := List.mem_map.mp h
  rw [DrawnRow.moves_ofRow]
  exact DrawnEdge.separate_group _

end Drawing

/-! ### Generated tables -/

theorem mapM_eq_ok {α β : Type} {f : α → Except Missing β} {h : α → β} {l : List α}
    (hf : ∀ x ∈ l, f x = .ok (h x)) : l.mapM f = .ok (l.map h) := by
  induction l with
  | nil => rfl
  | cons x l ih =>
      rw [List.mapM_cons, hf x (by simp), ok_bind, ih fun y hy => hf y (by simp [hy])]
      rfl

namespace Generation

variable {g : Grammar} {mode : Mode} {log : LogOptions} {gen : Generation} {text : Text}

/-- A generated table holds every transition: as a shift if its symbol is a terminal, and as a state
to go to otherwise. It shifts and goes along nothing else. -/
theorem moves_iff_mem_transitions (h : Generation.ofGrammar g mode log = .ok (gen, text))
    {n m : Nat} {s : Symbol} :
    (gen.table.action? n s = some (.shift m) ∨
      gen.table.goto? n s = some m ∧ s ≠ Symbol.goal) ↔ ⟨n, s, m⟩ ∈ gen.automaton.transitions := by
  have hdescribes := describes_of_ofGrammar h
  have hcanonical := hdescribes.canonical
  constructor
  · rintro (haction | ⟨hgoto, -⟩)
    · obtain ⟨items, -, hcandidate⟩ := hdescribes.generated.sound haction
      cases hcandidate with
      | shift _ _ _ hm => exact Automaton.mem_of_target? hm
    · exact Automaton.mem_of_target? (hdescribes.generated.goto.mp hgoto).2
  · intro ht
    have htarget := hcanonical.target?_iff_mem.mpr ht
    obtain ⟨items, hn, hscan, -⟩ := hcanonical.transition_spec ht
    obtain ⟨i, hi, hs⟩ := Grammar.mem_scannedSymbols.mp hscan
    cases hnon : g.isNonTerminal s with
    | true =>
        have hgoal : s ≠ Symbol.goal := fun heq => Grammar.scanned?_ne_goal (heq ▸ hs)
        exact Or.inr ⟨hdescribes.generated.goto.mpr ⟨hnon, htarget⟩, hgoal⟩
    | false =>
        -- accept is the only action that a shift gives way to, and it stands on the end mark
        obtain ⟨p, hp, hmem⟩ := Grammar.scanned?_mem_rhs hs
        have hterminal : s ∈ g.terminals := Grammar.mem_terminals.mpr ⟨hnon, p, hp, hmem⟩
        have hend : s ≠ Symbol.endMark := fun heq => g.endMark_notMem_terminals (heq ▸ hterminal)
        refine Or.inl ?_
        rw [Table.action?_of_build hcanonical (Table.reductionLookaheads_eq g mode)
            (ofGrammar_inv h).2, Table.preferred_cellActions hcanonical hn,
          if_neg fun hboth => hend hboth.1,
          if_pos ⟨hterminal, i, Std.ExtTreeSet.mem_toList.mpr hi, hs⟩, htarget]
        rfl

/-- The drawing of a generation shows its states and its rows. -/
theorem Complete.read?_drawing (h : gen.Complete) : ∃ items drawing,
    (List.range gen.automaton.states.size).mapM gen.stateLabels = .ok items ∧
      Drawing.automaton gen = .ok drawing ∧
      Drawing.read? drawing =
        some (Drawing.nodes items ++ Drawing.edges (Drawing.rows gen)) := by
  choose! items hitems using fun n (hn : n < gen.automaton.states.size) => h.stateLabels_eq_ok hn
  choose! line hline using fun n (hn : n < gen.automaton.states.size) => h.stateLine_eq_ok hn
  have hlabels : (List.range gen.automaton.states.size).mapM gen.stateLabels =
      .ok ((List.range gen.automaton.states.size).map items) :=
    mapM_eq_ok fun n hn => hitems n (List.mem_range.mp hn)
  have hstates : (List.range gen.automaton.states.size).mapM (Drawing.stateLine gen) =
      .ok ((List.range gen.automaton.states.size).map line) :=
    mapM_eq_ok fun n hn => hline n (List.mem_range.mp hn)
  -- the rows are numbered as the states are
  have hrange : List.range gen.automaton.states.size =
      (Drawing.rows gen).zipIdx.map Prod.snd := by
    rw [List.zipIdx_map_snd, List.range_eq_range', Drawing.rows, List.length_map, ← h.rows,
      Array.length_toList]
  have hedges : (List.range gen.automaton.states.size).mapM
      (fun n => Drawing.rowLines n <$> Drawing.rowOf gen n) =
        .ok ((Drawing.rows gen).zipIdx.map fun (d, n) => Drawing.rowLines n d) := by
    rw [hrange, List.mapM_map]
    refine mapM_eq_ok fun q hq => ?_
    obtain ⟨row, hrow, hd⟩ := Drawing.getElem?_rows_eq_some.mp (List.mem_zipIdx_iff_getElem?.mp hq)
    simp only [Function.comp, Drawing.rowOf, Table.row, hrow, ← hd]
    rfl
  have hdrawing : Drawing.automaton gen = .ok (Drawing.document
      ((List.range gen.automaton.states.size).flatMap line)
      ((Drawing.rows gen).zipIdx.flatMap fun (d, n) => Drawing.rowLines n d)) := by
    rw [Drawing.automaton, hstates, ok_bind, hedges, List.flatMap_def, List.flatMap_def]
    rfl
  have hnodes : Drawing.nodes ((List.range gen.automaton.states.size).map items) =
      (List.range gen.automaton.states.size).flatMap fun n =>
        [.node n (Drawing.stateLabel n (items n))] := by
    rw [← List.map_eq_flatMap, Drawing.nodes]
    refine List.ext_getElem (by simp) fun k hk _ => ?_
    simp
  refine ⟨_, _, hlabels, hdrawing, Drawing.read?_document ?_ ?_⟩
  · rw [hnodes]
    exact .flatMap fun n hn => Drawing.writes_stateLine (hitems n (List.mem_range.mp hn))
      (hline n (List.mem_range.mp hn))
  · exact .flatMap fun q _ => Drawing.writes_rowLines q.2 q.1

/-- **The solid edges are the transitions**, whatever conflicts the table has. A viewer of the
drawing shows a node for every state, and the edges of the rows. Each transition is a label of one
solid edge, no two solid edges lead from one row to one state, and the edges to `acc` come from the
cells that accept. -/
theorem ofGrammar_drawing (g : Grammar) (mode : Mode) (log : LogOptions) :
    ∃ gen text items drawing shown, Generation.ofGrammar g mode log = .ok (gen, text) ∧
      Automaton.ofGrammar g = .ok gen.automaton ∧
      (List.range gen.automaton.states.size).mapM gen.stateLabels = .ok items ∧
      Drawing.automaton gen = .ok drawing ∧ Drawing.read? drawing = some shown ∧
      shown = Drawing.nodes items ++ Drawing.edges (Drawing.rows gen) ∧
      shown.filterMap Drawing.Statement.solid? =
        (Drawing.solid (Drawing.rows gen)).map
          (fun (n, e) => (n, e.target, Text.join "," e.labels)) ∧
      (Drawing.solidEdges (Drawing.rows gen)).Perm gen.automaton.transitions.toList ∧
      (Drawing.solidEdges (Drawing.rows gen)).Nodup ∧
      ((shown.filterMap Drawing.Statement.solid?).map fun (n, m, _) => (n, m)).Nodup ∧
      (shown.filterMap Drawing.Statement.accept?).Nodup ∧
      ∀ (n : Nat) (s : Symbol), (n, s) ∈ shown.filterMap Drawing.Statement.accept? ↔
        gen.table.action? n s = some .accept := by
  obtain ⟨gen, text, hgen, hdescribes⟩ := exists_ofGrammar g mode log
  obtain ⟨items, drawing, hitems, hdrawing, hread⟩ := (complete_of_ofGrammar hgen).read?_drawing
  have hseparate : ∀ d ∈ Drawing.rows gen, DrawnEdge.Separate d.moves := fun d hd =>
    Drawing.separate_moves hd
  have hnodup := Drawing.nodup_solidEdges hseparate
  refine ⟨gen, text, items, drawing, _, hgen, (ofGrammar_inv hgen).1, hitems, hdrawing, hread, rfl,
    ?_, ?_, hnodup, ?_, ?_, ?_⟩
  · rw [List.filterMap_append, Drawing.filterMap_nodes_solid?, List.nil_append,
      Drawing.filterMap_edges_solid?]
  · refine (List.perm_ext_iff_of_nodup hnodup hdescribes.canonical.nodup_transitions).mpr ?_
    rintro ⟨n, s, m⟩
    rw [Drawing.mem_solidEdges_rows, moves_iff_mem_transitions hgen, Array.mem_toList_iff]
  · rw [List.filterMap_append, Drawing.filterMap_nodes_solid?, List.nil_append,
      Drawing.filterMap_edges_solid?, List.map_map]
    exact Drawing.nodup_solid hseparate
  · rw [List.filterMap_append, Drawing.filterMap_nodes_accept?, List.nil_append,
      Drawing.filterMap_edges_accept?]
    refine Drawing.nodup_acceptEdges fun d hd => ?_
    obtain ⟨row, -, rfl⟩ := List.mem_map.mp hd
    rw [DrawnRow.accepting_ofRow]
    exact Row.nodup_acceptsOf row
  · intro n s
    rw [List.filterMap_append, Drawing.filterMap_nodes_accept?, List.nil_append,
      Drawing.filterMap_edges_accept?]
    exact Drawing.mem_acceptEdges_rows

end Generation

/-! ### The label of a reduction -/

/-- The least production that an LR(0) state can reduce is the same in every column. -/
theorem Grammar.leastReduction?_lr0 {g : Grammar} {s s' : Symbol}
    (hs : s ∈ g.terminals ∨ s = Symbol.endMark) (hs' : s' ∈ g.terminals ∨ s' = Symbol.endMark)
    (items : ItemSet) : g.leastReduction? .lr0 items s = g.leastReduction? .lr0 items s' := by
  have hreduces : ∀ r, g.Reduces .lr0 items s r ↔ g.Reduces .lr0 items s' r := by
    intro r
    simp only [Reduces, IsLookahead, hs, hs']
  exact congrArg (List.range g.rules.length).find?
    (funext fun r => decide_eq_decide.mpr (hreduces r))

namespace Generation

variable {g : Grammar} {mode : Mode} {log : LogOptions} {gen : Generation} {text : Text} {n : Nat}
  {items : ItemSet}

/-- A cell reduces by the least production that its state can reduce there, if the state neither
accepts nor shifts. -/
theorem action?_eq_reduce_iff (h : Generation.ofGrammar g mode log = .ok (gen, text))
    (hn : gen.automaton.states[n]? = some items) {s : Symbol} {r : Nat} :
    gen.table.action? n s = some (.reduce r) ↔
      ¬((s ∈ g.terminals ∧ ∃ i ∈ items, g.scanned? i = some s) ∨
        s = Symbol.endMark ∧ ⟨0, 1⟩ ∈ items) ∧ g.leastReduction? mode items s = some r := by
  have hcanonical := (describes_of_ofGrammar h).canonical
  rw [Table.action?_of_build hcanonical (Table.reductionLookaheads_eq g mode) (ofGrammar_inv h).2,
    Table.preferred_cellActions hcanonical hn]
  split
  · rename_i haccept
    simp [haccept]
  · rename_i haccept
    split
    · rename_i hshift
      simp only [Std.ExtTreeSet.mem_toList] at hshift
      simp [hshift]
    · rename_i hshift
      simp only [Std.ExtTreeSet.mem_toList] at hshift
      simp only [haccept, hshift, or_self, not_false_eq_true, true_and, Option.map_eq_some_iff,
        Action.reduce.injEq, exists_eq_right]

/-- Only the columns of a table reduce. -/
theorem column_of_reduce (h : Generation.ofGrammar g .lr0 log = .ok (gen, text))
    (hn : gen.automaton.states[n]? = some items) {s : Symbol} {r : Nat}
    (ha : gen.table.action? n s = some (.reduce r)) : s ∈ g.terminals ∨ s = Symbol.endMark := by
  obtain ⟨-, hleast⟩ := (action?_eq_reduce_iff h hn).mp ha
  obtain ⟨⟨-, p, -, -, hlookahead⟩, -⟩ := Grammar.leastReduction?_spec hleast
  exact hlookahead

/-- If a cell of an LR(0) row reduces by a production, then so does every column in which the state
neither shifts nor accepts. -/
theorem reduces_iff_of_reduces (h : Generation.ofGrammar g .lr0 log = .ok (gen, text))
    (hn : gen.automaton.states[n]? = some items) {s s' : Symbol} {r : Nat}
    (ha : gen.table.action? n s = some (.reduce r))
    (hs' : s' ∈ g.terminals ∨ s' = Symbol.endMark) :
    gen.table.action? n s' = some (.reduce r) ↔
      ¬((s' ∈ g.terminals ∧ ∃ i ∈ items, g.scanned? i = some s') ∨
        s' = Symbol.endMark ∧ ⟨0, 1⟩ ∈ items) := by
  have hleast := ((action?_eq_reduce_iff h hn).mp ha).2
  rw [action?_eq_reduce_iff h hn,
    Grammar.leastReduction?_lr0 hs' (column_of_reduce h hn ha) items]
  exact and_iff_left hleast

/-- In a table without conflicts it is every column. -/
theorem reduces_of_isValid (h : Generation.ofGrammar g .lr0 log = .ok (gen, text))
    (hvalid : gen.isValid = true) {s s' : Symbol} {r : Nat}
    (ha : gen.table.action? n s = some (.reduce r))
    (hs' : s' ∈ g.terminals ∨ s' = Symbol.endMark) : gen.table.action? n s' = some (.reduce r) := by
  have hgenerated := (describes_of_ofGrammar h).generated
  obtain ⟨items, hn, hcandidate⟩ := hgenerated.sound ha
  cases hcandidate with
  | reduce hr hp hi _ =>
      exact hgenerated.complete hvalid hn (.reduce hr hp hi (Grammar.mem_actionColumns.mpr hs'))

/-- No LR(0) row reduces by two productions. -/
theorem reduce_unique (h : Generation.ofGrammar g .lr0 log = .ok (gen, text))
    (hn : gen.automaton.states[n]? = some items) {s s' : Symbol} {r r' : Nat}
    (ha : gen.table.action? n s = some (.reduce r))
    (ha' : gen.table.action? n s' = some (.reduce r')) : r = r' := by
  have hleast := ((action?_eq_reduce_iff h hn).mp ha).2
  have hleast' := ((action?_eq_reduce_iff h hn).mp ha').2
  rw [Grammar.leastReduction?_lr0 (column_of_reduce h hn ha') (column_of_reduce h hn ha)] at hleast'
  exact Option.some.inj (hleast.symm.trans hleast')

/-- A state has a row, and no row of an LR(0) table has two reductions. -/
theorem exists_row (h : Generation.ofGrammar g .lr0 log = .ok (gen, text))
    (hn : gen.automaton.states[n]? = some items) :
    ∃ row, gen.table.rows[n]? = some row ∧ (∀ s, gen.table.action? n s = row.actions[s]?) ∧
      ∀ q ∈ Row.reductionsOf row.actions.toList, ∀ q' ∈ Row.reductionsOf row.actions.toList,
        q.2 = q'.2 := by
  have hlt : n < gen.table.rows.size :=
    (complete_of_ofGrammar h).rows ▸ (Array.getElem?_eq_some_iff.mp hn).1
  have haction := Table.action?_of_lt hlt
  refine ⟨gen.table.rows[n], Array.getElem?_eq_getElem hlt, haction, ?_⟩
  intro (s, r) hq (s', r') hq'
  rw [Row.mem_reductionsOf, ← haction] at hq hq'
  exact reduce_unique h hn hq hq'

/-- The label is drawn for a production if some cell of the row reduces by it. -/
theorem exists_any_iff (h : Generation.ofGrammar g .lr0 log = .ok (gen, text))
    (hn : gen.automaton.states[n]? = some items) :
    ∃ d, Drawing.rowOf gen n = .ok d ∧ ∀ r,
      (∃ e ∈ d.reductions, e.target = r ∧ DrawnRow.anyLabel ∈ e.labels) ↔
        ∃ s, gen.table.action? n s = some (.reduce r) := by
  obtain ⟨row, hrow, haction, hsame⟩ := exists_row h hn
  refine ⟨DrawnRow.ofRow .lr0 row, ?_, fun r => ?_⟩
  · rw [Drawing.rowOf, Table.row, hrow, (describes_of_ofGrammar h).mode_eq]
    rfl
  · rw [DrawnRow.any_iff hsame]
    simp only [haction]

/-- A viewer shows a dashed edge to a production if some cell of the row reduces by it, and its
label is `(any)`. -/
theorem mem_shown_production (h : Generation.ofGrammar g .lr0 log = .ok (gen, text))
    (hn : gen.automaton.states[n]? = some items) (labels : List (List Text)) {r : Nat}
    {label : Text} :
    .edge n (.production r) label true ∈ Drawing.nodes labels ++ Drawing.edges (Drawing.rows gen) ↔
      label = DrawnRow.anyLabel ∧ ∃ s, gen.table.action? n s = some (.reduce r) := by
  obtain ⟨row, hrow, haction, hsame⟩ := exists_row h hn
  have hjoin : Text.join "," [DrawnRow.anyLabel] = DrawnRow.anyLabel := List.intercalate_singleton
  have hdrawn : ∀ d, (Drawing.rows gen)[n]? = some d ↔ DrawnRow.ofRow .lr0 row = d := by
    intro d
    rw [Drawing.getElem?_rows_eq_some, hrow, (describes_of_ofGrammar h).mode_eq]
    simp
  rw [List.mem_append, or_iff_right Drawing.production_notMem_nodes, Drawing.mem_edges_production]
  simp only [hdrawn, exists_eq_left', haction, DrawnRow.mem_reductions_lr0 hsame]
  constructor
  · intro ⟨e, ⟨hlabels, hs⟩, htarget, hlabel⟩
    rw [hlabels, hjoin] at hlabel
    exact ⟨hlabel.symm, htarget ▸ hs⟩
  · intro ⟨hlabel, hs⟩
    exact ⟨⟨r, [DrawnRow.anyLabel]⟩, ⟨rfl, hs⟩, rfl, hjoin.trans hlabel.symm⟩

/-- **What the label `(any)` says.** It is drawn for a production as soon as some cell of the row
reduces by it, and a viewer of the drawing shows it on the edge to the production. The other columns
do the same, but for those in which the state shifts or accepts: so the label is right about all
columns if the state scans no terminal and does not hold the finished goal production, and in
particular if the table has no conflicts. -/
theorem any_label_iff (g : Grammar) (log : LogOptions) :
    ∃ gen text drawing shown, Generation.ofGrammar g .lr0 log = .ok (gen, text) ∧
      Drawing.automaton gen = .ok drawing ∧ Drawing.read? drawing = some shown ∧
      ∀ (n : Nat) (items : ItemSet), gen.automaton.states[n]? = some items →
        ∃ d, Drawing.rowOf gen n = .ok d ∧ ∀ r,
          (.edge n (.production r) DrawnRow.anyLabel true ∈ shown ↔
            ∃ e ∈ d.reductions, e.target = r ∧ DrawnRow.anyLabel ∈ e.labels) ∧
          (∀ label, .edge n (.production r) label true ∈ shown → label = DrawnRow.anyLabel) ∧
          ((∃ e ∈ d.reductions, e.target = r ∧ DrawnRow.anyLabel ∈ e.labels) ↔
            ∃ s, gen.table.action? n s = some (.reduce r)) ∧
          ((∃ e ∈ d.reductions, e.target = r ∧ DrawnRow.anyLabel ∈ e.labels) →
            (∀ s, s ∈ g.terminals ∨ s = Symbol.endMark →
              (gen.table.action? n s = some (.reduce r) ↔
                ¬((s ∈ g.terminals ∧ ∃ i ∈ items, g.scanned? i = some s) ∨
                  s = Symbol.endMark ∧ ⟨0, 1⟩ ∈ items))) ∧
            (gen.isValid = true → ∀ s, s ∈ g.terminals ∨ s = Symbol.endMark →
              gen.table.action? n s = some (.reduce r))) := by
  obtain ⟨gen, text, hgen, hdescribes⟩ := exists_ofGrammar g .lr0 log
  obtain ⟨labels, drawing, -, hdrawing, hread⟩ := (complete_of_ofGrammar hgen).read?_drawing
  refine ⟨gen, text, drawing, _, hgen, hdrawing, hread, fun n items hn => ?_⟩
  obtain ⟨d, hd, hany⟩ := exists_any_iff hgen hn
  refine ⟨d, hd, fun r => ⟨?_, fun label hlabel => ?_, hany r, fun hlabel => ?_⟩⟩
  · rw [mem_shown_production hgen hn, hany r]
    exact and_iff_right rfl
  · exact ((mem_shown_production hgen hn labels).mp hlabel).1
  · obtain ⟨s₀, hs₀⟩ := (hany r).mp hlabel
    refine ⟨fun s hs => reduces_iff_of_reduces hgen hn hs₀ hs, fun hvalid s hs => ?_⟩
    exact reduces_of_isValid hgen hvalid hs₀ hs

/-- The productions `S ->` and `S -> x`. The first state can reduce the one and shift in the
other. -/
def optional : Grammar :=
  ⟨[⟨"S", []⟩, ⟨"S", ["x"]⟩], by simp, by decide⟩

/-- The first state is drawn to reduce by the empty production on any lookahead, and it shifts `x`,
which is a terminal. -/
theorem any_label_overstates :
    ∃ gen text d drawing shown, Generation.ofGrammar optional .lr0 .none = .ok (gen, text) ∧
      Drawing.rowOf gen 0 = .ok d ∧ ⟨1, [DrawnRow.anyLabel]⟩ ∈ d.reductions ∧
      Drawing.automaton gen = .ok drawing ∧ Drawing.read? drawing = some shown ∧
      .edge 0 (.production 1) DrawnRow.anyLabel true ∈ shown ∧
      ("x" : Text) ∈ optional.terminals ∧
      gen.table.action? 0 ("x" : Text) = some (.shift 2) := by
  obtain ⟨gen, text, hgen, -⟩ := exists_ofGrammar optional .lr0 .none
  have hdrawn : (Generation.ofGrammar optional .lr0 .none).toOption.map (fun q =>
      ((Drawing.rowOf q.1 0).toOption.map DrawnRow.reductions,
        q.1.table.action? 0 Symbol.endMark, q.1.table.action? 0 ("x" : Text))) =
      some (some [⟨1, [DrawnRow.anyLabel]⟩], some (.reduce 1), some (.shift 2)) := by
    decide +kernel
  simp only [hgen, Except.toOption, Option.map_some, Option.some.injEq, Prod.mk.injEq] at hdrawn
  obtain ⟨hrow, hreduce, hshift⟩ := hdrawn
  have hterminal : ("x" : Text) ∈ optional.terminals := by decide +kernel
  obtain ⟨labels, drawing, -, hdrawing, hread⟩ := (complete_of_ofGrammar hgen).read?_drawing
  obtain ⟨items, hn, -⟩ := (describes_of_ofGrammar hgen).generated.sound hreduce
  cases hd : Drawing.rowOf gen 0 with
  | error e => simp [hd] at hrow
  | ok d =>
      simp only [hd, Option.map_some, Option.some.injEq] at hrow
      exact ⟨gen, text, d, drawing, _, hgen, hd, hrow ▸ List.mem_singleton_self _, hdrawing, hread,
        (mem_shown_production hgen hn labels).mpr ⟨rfl, _, hreduce⟩, hterminal, hshift⟩

end Generation

end ShiftReduce
