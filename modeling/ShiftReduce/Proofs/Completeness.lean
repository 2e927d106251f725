import ShiftReduce.Proofs.Soundness

/-!
# ShiftReduce.Proofs.Completeness

**A table without conflicts finds every parse tree.** Where an item of the state on top calls for
the symbol of a tree, the engine reads the leaves of the tree and puts the tree on the stack, with
one move for every node (`Generation.Builds`, `Generation.Describes.builds`). The induction is on
the tree: the children of a node are built one after the other while the marker moves over the
right-hand side, then the node itself by a reduction. The token after the leaves matters to the
reductions only. It can always follow the symbol of the tree, so both kinds of tables have the
reduction on it.

The run on a sentence is therefore determined by any of its parse trees
(`Generation.Describes.accepts`). So every sentence is accepted, and no sentence has two trees.
-/

namespace ShiftReduce

open ParseTree

/-- After a symbol of a right-hand side comes the first leaf of the trees of the rest or, without
leaves, what comes after the left-hand side. -/
theorem Grammar.Follows.of_rest {g : Grammar} {p : Production} (hp : p ∈ g.rules)
    {before : List Symbol} {s : Symbol} {ts : List ParseTree}
    (hrhs : p.rhs = before ++ s :: ts.map symbol) (hfits : ∀ t ∈ ts, t.Fits g) {x : Symbol}
    (hx : g.Follows p.lhs x) (rest : List Symbol) :
    ∃ y rest', yields ts ++ x :: rest = y :: rest' ∧ g.Follows s y := by
  have hderives := derives_yields fun t ht => (hfits t ht).derives
  have hterminals := mem_terminals_of_mem_yields fun t ht => (hfits t ht).mem_terminals
  cases hyields : yields ts with
  | nil =>
      rw [hyields] at hderives
      exact ⟨x, rest, rfl, .inherit hp hrhs hderives hx⟩
  | cons y tail =>
      rw [hyields] at hderives hterminals
      exact ⟨y, tail ++ x :: rest, rfl, .inside hp hrhs hderives (hterminals y (by simp))⟩

/-- The end mark can follow the start symbol. -/
theorem Grammar.Follows.start (g : Grammar) : g.Follows g.start Symbol.endMark := by
  have hrhs : g.goalRule.rhs = [] ++ g.start :: [] := rfl
  exact .inherit (mem_rules_of_rule? g.rule?_zero) hrhs (.refl _) .goal

namespace Generation

variable {gen : Generation} {g : Grammar} {mode : Mode}

/-! ### Actions of a table without conflicts -/

section Actions

variable {fs : List Frame}

/-- What the valid items of the stack call for is in the table. -/
theorem Describes.action?_of_candidate (h : gen.Describes g mode) (hvalid : gen.isValid = true)
    (hpath : Frame.Path gen.automaton fs) {s : Symbol} {action : Action}
    (hcandidate : ∀ items, (∀ i, i ∈ items ↔ g.Valid (Frame.symbols fs) i) →
      Table.Candidate g gen.automaton (g.reduceOn mode) (Frame.top fs) items s action) :
    gen.table.action? (Frame.top fs) s = some action := by
  obtain ⟨items, hitems, hmem⟩ := h.canonical.mem_iff_valid hpath.follow?
  exact h.generated.complete hvalid hitems (hcandidate items hmem)

theorem Describes.action?_shift (h : gen.Describes g mode) (hvalid : gen.isValid = true)
    (hpath : Frame.Path gen.automaton fs) {i : Item} (hi : g.Valid (Frame.symbols fs) i)
    {s : Symbol} (hs : g.scanned? i = some s) (ht : s ∈ g.terminals) {m : Nat}
    (hm : gen.automaton.target? (Frame.top fs) s = some m) :
    gen.table.action? (Frame.top fs) s = some (.shift m) :=
  h.action?_of_candidate hvalid hpath fun _ hmem => .shift ((hmem i).mpr hi) hs ht hm

theorem Describes.action?_reduce (h : gen.Describes g mode) (hvalid : gen.isValid = true)
    (hpath : Frame.Path gen.automaton fs) {r : Nat} (hr : 1 ≤ r) {p : Production}
    (hp : g.rule? r = some p) (hi : g.Valid (Frame.symbols fs) ⟨r, p.rhs.length⟩) {s : Symbol}
    (hs : g.Follows p.lhs s) : gen.table.action? (Frame.top fs) s = some (.reduce r) :=
  h.action?_of_candidate hvalid hpath fun _ hmem => .reduce hr hp ((hmem _).mpr hi)
    (Grammar.mem_reduceOn_of_follows mode (Grammar.mem_rules_of_rule? hp) hs)

theorem Describes.action?_accept (h : gen.Describes g mode) (hvalid : gen.isValid = true)
    (hpath : Frame.Path gen.automaton fs) (hi : g.Valid (Frame.symbols fs) ⟨0, 1⟩) :
    gen.table.action? (Frame.top fs) Symbol.endMark = some .accept :=
  h.action?_of_candidate hvalid hpath fun _ hmem => .accept ((hmem _).mpr hi)

end Actions

/-! ### Building trees -/

/-- Wherever a valid item of the stack calls for the symbol of the tree, the engine builds the tree
from its leaves, with one move for every node. -/
def Builds (gen : Generation) (g : Grammar) (tree : ParseTree) : Prop :=
  ∀ (rest : List Symbol) {fs : List Frame} {i : Item} {x : Symbol},
    Frame.Path gen.automaton fs → g.Valid (Frame.symbols fs) i →
    g.scanned? i = some tree.symbol → g.Follows tree.symbol x →
    ∃ m, gen.automaton.target? (Frame.top fs) tree.symbol = some m ∧
      Snapshot.Steps g gen.table tree.size ⟨fs, tree.yield ++ x :: rest⟩
        ⟨⟨m, tree⟩ :: fs, x :: rest⟩

/-- The trees of a right-hand side are built one after the other, from the marker on. -/
theorem builds_all {r : Nat} {p : Production} (hp : g.rule? r = some p) {x : Symbol}
    (hx : g.Follows p.lhs x) (rest : List Symbol) {ts : List ParseTree}
    (hfits : ∀ t ∈ ts, t.Fits g) (hbuilds : ∀ t ∈ ts, gen.Builds g t) {fs : List Frame}
    {before : List Symbol} (hpath : Frame.Path gen.automaton fs)
    (hi : g.Valid (Frame.symbols fs) ⟨r, before.length⟩)
    (hrhs : p.rhs = before ++ ts.map symbol) :
    ∃ taken, Frame.trees taken = ts ∧ Frame.Path gen.automaton (taken ++ fs) ∧
      g.Valid (Frame.symbols (taken ++ fs)) ⟨r, p.rhs.length⟩ ∧
      Snapshot.Steps g gen.table (sizes ts) ⟨fs, yields ts ++ x :: rest⟩
        ⟨taken ++ fs, x :: rest⟩ := by
  induction ts generalizing fs before with
  | nil =>
      rw [hrhs, List.map_nil, List.append_nil]
      exact ⟨[], rfl, hpath, hi, .refl _⟩
  | cons t ts ih =>
      have hscanned : g.scanned? ⟨r, before.length⟩ = some t.symbol :=
        Grammar.scanned?_eq_some.mpr ⟨p, hp, by simp [hrhs]⟩
      -- the lookahead of this tree is the first leaf of the later ones, or `x`
      obtain ⟨y, rest', hnext, hy⟩ := Grammar.Follows.of_rest (Grammar.mem_rules_of_rule? hp) hrhs
        (fun u hu => hfits u (by simp [hu])) hx rest
      obtain ⟨m, hm, hhead⟩ := hbuilds t (by simp) rest' hpath hi hscanned hy
      have hpath' : Frame.Path gen.automaton (⟨m, t⟩ :: fs) := .cons hpath hm
      have hi' : g.Valid (Frame.symbols (⟨m, t⟩ :: fs)) ⟨r, (before ++ [t.symbol]).length⟩ := by
        rw [Frame.symbols_cons, List.length_append]
        exact .advance hi hscanned
      obtain ⟨taken, htaken, hpath', hi', htail⟩ := ih (fun u hu => hfits u (by simp [hu]))
        (fun u hu => hbuilds u (by simp [hu])) hpath' hi' (by simp [hrhs])
      refine ⟨taken ++ [⟨m, t⟩], by simp [htaken], ?_, ?_, ?_⟩
      · simpa using hpath'
      · simpa using hi'
      · rw [← hnext] at hhead
        simpa [yields, sizes] using hhead.trans htail

/-- The engine builds every tree that fits the grammar. -/
theorem Describes.builds (h : gen.Describes g mode) (hvalid : gen.isValid = true) {tree : ParseTree}
    (hfits : tree.Fits g) : gen.Builds g tree := by
  induction hfits with
  | @leaf s hs =>
      intro rest fs i x hpath hi hscanned _
      obtain ⟨m, hm, -⟩ := h.canonical.exists_follow? hpath.follow? hi hscanned
      have ha := h.action?_shift hvalid hpath hi hscanned hs hm
      exact ⟨m, hm, .single (Snapshot.step_shift ha)⟩
  | @node r p children hr hp hrhs hfits ih =>
      intro rest fs i x hpath hi hscanned hx
      obtain ⟨m, hm, -⟩ := h.canonical.exists_follow? hpath.follow? hi hscanned
      have hstart : g.Valid (Frame.symbols fs) ⟨r, ([] : List Symbol).length⟩ :=
        .predict hi hscanned hp
      obtain ⟨taken, rfl, hpath', hi', hsteps⟩ := builds_all hp hx rest hfits ih hpath hstart hrhs
      -- the state on top has the finished item, and the state below leads on to `m`
      have ha := h.action?_reduce hvalid hpath' hr hp hi' hx
      have hgoto := h.generated.goto.mpr
        ⟨Grammar.isNonTerminal_lhs (Grammar.mem_rules_of_rule? hp), hm⟩
      have hlength : taken.length = p.rhs.length := by simp [hrhs]
      exact ⟨m, hm, hsteps.trans (.single (Snapshot.step_reduce ha hp hlength hgoto))⟩

/-- The run on a sentence builds each of its trees, and accepts it. -/
theorem Describes.accepts (h : gen.Describes g mode) (hvalid : gen.isValid = true)
    {tree : ParseTree} {w : List Symbol} (hparses : tree.Parses g g.start w) (rest : List Symbol) :
    ∃ s, Snapshot.Steps g gen.table tree.size (.initial (w ++ Symbol.endMark :: rest)) s ∧
      s.step g gen.table = .accepts tree := by
  obtain ⟨hfits, hsymbol, rfl⟩ := hparses
  have hscanned : g.scanned? ⟨0, 0⟩ = some tree.symbol := by rw [hsymbol, g.scanned?_goal]
  have hfollows : g.Follows tree.symbol Symbol.endMark := hsymbol ▸ Grammar.Follows.start g
  obtain ⟨m, hm, hsteps⟩ := h.builds hvalid hfits rest .nil .goal hscanned hfollows
  have hpath : Frame.Path gen.automaton [⟨m, tree⟩] := .cons .nil hm
  have ha := h.action?_accept hvalid hpath (.advance .goal hscanned)
  exact ⟨_, hsteps, by simp only [Snapshot.step, ha, Snapshot.move, Snapshot.accept]⟩

/-! ### Balanced brackets -/

namespace Brackets

/-- The productions `S -> ( S ) S` and `S -> ε`. -/
def grammar : Grammar :=
  ⟨[⟨"S", ["(", "S", ")", "S"]⟩, ⟨"S", []⟩], by simp, by decide⟩

/-- One pair of brackets. -/
def pair : List Symbol := ["(", ")"]

/-- The tree of one pair of brackets. -/
def tree : ParseTree :=
  .node 1 "S" [.leaf "(", .node 2 "S" [], .leaf ")", .node 2 "S" []]

theorem isValid {gen : Generation} {text : Text}
    (h : Generation.ofGrammar grammar .slr1 .none = .ok (gen, text)) : gen.isValid = true := by
  have hvalid : (Generation.ofGrammar grammar .slr1 .none).toOption.map (·.1.isValid) =
      some true := by decide +kernel
  simpa [h, Except.toOption] using hvalid

theorem mem_terminals : ∀ s ∈ pair, s ∈ grammar.terminals := by
  decide +kernel

theorem tree_parses : tree.Parses grammar grammar.start pair := by
  have hleaf : ∀ s ∈ pair, Fits grammar (.leaf s) := fun s hs => .leaf (mem_terminals s hs)
  have hempty : Fits grammar (.node 2 "S" []) :=
    .node (p := ⟨"S", []⟩) (by omega) rfl rfl (by simp)
  refine ⟨.node (p := ⟨"S", ["(", "S", ")", "S"]⟩) (by omega) rfl rfl ?_, rfl, rfl⟩
  simp only [List.forall_mem_cons]
  exact ⟨hleaf _ (by decide), hempty, hleaf _ (by decide), hempty, by simp⟩

end Brackets

/-! ### The results -/

/-- A sentence has one tree: the run on the sentence is the same whichever tree it builds. -/
theorem Describes.eq_of_parses (h : gen.Describes g mode) (hvalid : gen.isValid = true)
    {t u : ParseTree} {w : List Symbol} (ht : t.Parses g g.start w) (hu : u.Parses g g.start w) :
    t = u := by
  -- the engine is deterministic, so both trees end the same run
  obtain ⟨s, hs, hst⟩ := h.accepts hvalid ht []
  obtain ⟨v, hv, hvu⟩ := h.accepts hvalid hu []
  have hs' : (s.step g gen.table).Final := by simp [hst, Outcome.Final]
  have hv' : (v.step g gen.table).Final := by simp [hvu, Outcome.Final]
  have hsize : t.size = u.size := Nat.le_antisymm (hv.le_of_final hv' hs) (hs.le_of_final hs' hv)
  obtain rfl : s = v := hs.unique (hsize ▸ hv)
  exact Outcome.accepts.inj (hst.symm.trans hvu)

/-- A table without conflicts accepts every sentence, if it may make enough moves. What comes after
the end mark does not matter. -/
theorem parse_complete (g : Grammar) (mode : Mode) (log : LogOptions) :
    ∃ gen text, Generation.ofGrammar g mode log = .ok (gen, text) ∧
      (gen.isValid = true → ∀ w rest : List Symbol, (∀ s ∈ w, s ∈ g.terminals) →
        g.Derives [g.start] w → ∃ enough, ∀ limit, enough ≤ limit →
          ∃ r, Engine.parse g gen.table limit (w ++ Symbol.endMark :: rest) = .ok r ∧
            r.accepted = true) := by
  obtain ⟨gen, text, hgen, hdescribes⟩ := exists_ofGrammar g mode log
  refine ⟨gen, text, hgen, fun hvalid w rest hw hderives => ?_⟩
  obtain ⟨tree, htree⟩ := hderives.exists_parses g.start_ne_goal hw
  obtain ⟨s, hs, hstep⟩ := hdescribes.accepts hvalid htree rest
  refine ⟨tree.size + 1, fun limit hlimit => ?_⟩
  obtain ⟨r, hr, hends⟩ := Engine.parse_spec g gen.table limit (w ++ Symbol.endMark :: rest)
  exact ⟨r, hr, (hends.of_accepts hs hstep).1.mpr hlimit⟩

theorem parse_complete_brackets :
    ∃ gen text, Generation.ofGrammar Brackets.grammar .slr1 .none = .ok (gen, text) ∧
      gen.isValid = true ∧ ∃ enough, ∀ limit, enough ≤ limit →
        ∃ r, Engine.parse Brackets.grammar gen.table limit (Brackets.pair ++ [Symbol.endMark]) =
          .ok r ∧ r.accepted = true := by
  obtain ⟨gen, text, hgen, h⟩ := parse_complete Brackets.grammar .slr1 .none
  have hvalid := Brackets.isValid hgen
  exact ⟨gen, text, hgen, hvalid,
    h hvalid Brackets.pair [] Brackets.mem_terminals Brackets.tree_parses.derives⟩

/-- In a grammar whose table has no conflicts, a string of terminals has at most one parse tree. It
is the tree that an accepting run returns, and the run makes one move for each of its nodes, before
the last step, which accepts. -/
theorem parse_tree_unique (g : Grammar) (mode : Mode) (log : LogOptions) :
    ∃ gen text, Generation.ofGrammar g mode log = .ok (gen, text) ∧
      (gen.isValid = true → ∀ w : List Symbol, (∀ s ∈ w, s ∈ g.terminals) →
        (∀ t u : ParseTree, t.Parses g g.start w → u.Parses g g.start w → t = u) ∧
        ∀ limit, ∃ r, Engine.parse g gen.table limit (w ++ [Symbol.endMark]) = .ok r ∧
          (∀ root, r.outcome = .ok root →
            ∃ tree, r.arena.tree root = .ok tree ∧ tree.shape.Parses g g.start w) ∧
          ∀ t : ParseTree, t.Parses g g.start w →
            (r.accepted = true ↔ t.size + 1 ≤ limit) ∧
            (r.accepted = true → r.trace.length = t.size + 1)) := by
  obtain ⟨gen, text, hgen, hdescribes⟩ := exists_ofGrammar g mode log
  refine ⟨gen, text, hgen, fun hvalid w hw => ⟨fun t u => hdescribes.eq_of_parses hvalid, ?_⟩⟩
  intro limit
  obtain ⟨r, hr, hends⟩ := Engine.parse_spec g gen.table limit (w ++ [Symbol.endMark])
  refine ⟨r, hr, fun root hroot => ?_, fun t ht => ?_⟩
  · obtain ⟨w', rest, tree, htokens, -, htree, hparses, -⟩ := hdescribes.parses_of_ends hends hroot
    have hmark : Symbol.endMark ∉ w := fun hmem => g.endMark_notMem_terminals (hw _ hmem)
    obtain ⟨rfl, -, -⟩ := (List.append_cons_inj_of_notMem hmark (by simp)).mp htokens
    exact ⟨tree, htree, hparses⟩
  · obtain ⟨s, hs, hstep⟩ := hdescribes.accepts hvalid ht []
    exact hends.of_accepts hs hstep

theorem parse_tree_unique_brackets :
    ∃ gen text, Generation.ofGrammar Brackets.grammar .slr1 .none = .ok (gen, text) ∧
      gen.isValid = true ∧
      (∀ t : ParseTree, t.Parses Brackets.grammar Brackets.grammar.start Brackets.pair →
        t = Brackets.tree) ∧
      ∀ limit, ∃ r,
        Engine.parse Brackets.grammar gen.table limit (Brackets.pair ++ [Symbol.endMark]) =
          .ok r ∧ (r.accepted = true ↔ 6 ≤ limit) := by
  obtain ⟨gen, text, hgen, h⟩ := parse_tree_unique Brackets.grammar .slr1 .none
  have hvalid := Brackets.isValid hgen
  obtain ⟨hunique, hparse⟩ := h hvalid Brackets.pair Brackets.mem_terminals
  refine ⟨gen, text, hgen, hvalid, fun t ht => hunique t _ ht Brackets.tree_parses, ?_⟩
  intro limit
  obtain ⟨r, hr, -, haccepted⟩ := hparse limit
  exact ⟨r, hr, (haccepted _ Brackets.tree_parses).1⟩

end Generation

end ShiftReduce
