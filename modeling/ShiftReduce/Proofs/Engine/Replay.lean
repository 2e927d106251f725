import ShiftReduce.Proofs.SententialForm
import ShiftReduce.Proofs.Table.Cell
import ShiftReduce.Proofs.Tree.Forest

/-!
# ShiftReduce.Proofs.Engine.Replay

**The tree of a run can be read off its trace, whatever the table.** Replaying the shifts and the
reductions of a trace on a stack of texts (`TraceStep.replay`) builds the text of the tree that the
run returns, although the replay knows neither the states nor the store of nodes.

Every move adds one node, over the roots that it takes away (`Turn.Builds`). So the store of a run
has a node for every move, each of which is a root or the child of one other node, and the texts of
the roots are those of the replay (`Config.Grown`). The leaves are the tokens that were shifted.
-/

namespace ShiftReduce

/-! ### Replaying a trace -/

namespace TraceStep

/-- The number of steps that shift. -/
def shifts (trace : List TraceStep) : Nat :=
  trace.countP (·.action.any Action.isShift)

/-- The number of steps that reduce. -/
def reductions (trace : List TraceStep) : Nat :=
  trace.countP (·.action.any Action.isReduce)

/-- What a step does to a stack of texts, the top first. A shift puts the token on it. A reduction
takes a text for every symbol of the right-hand side, and puts the left-hand side on the stack, with
these texts in brackets. -/
def replayStep (g : Grammar) (texts : List Text) (step : TraceStep) : Option (List Text) :=
  match step.action with
  | some (.shift _) => some (step.token :: texts)
  | some (.reduce rule) =>
    match g.rule? rule with
    | none => none
    | some p =>
      if p.rhs.length ≤ texts.length then
        some (Tree.bracketed p.lhs (texts.take p.rhs.length).reverse :: texts.drop p.rhs.length)
      else none
  | _ => some texts

/-- The stack of texts after a trace. -/
def replay (g : Grammar) (trace : List TraceStep) : Option (List Text) :=
  trace.foldlM (replayStep g) []

variable {g : Grammar} {trace : List TraceStep} {step : TraceStep}

theorem replay_append_singleton (trace : List TraceStep) (step : TraceStep) :
    replay g (trace ++ [step]) = (replay g trace).bind (replayStep g · step) := by
  rw [replay, List.foldlM_append]
  simp [replay]

theorem shifts_append (trace later : List TraceStep) :
    shifts (trace ++ later) = shifts trace + shifts later :=
  List.countP_append

theorem reductions_append (trace later : List TraceStep) :
    reductions (trace ++ later) = reductions trace + reductions later :=
  List.countP_append

/-- A token is read by every shift. -/
theorem length_shifted (trace : List TraceStep) : (shifted trace).length = shifts trace := by
  induction trace with
  | nil => rfl
  | cons step trace ih =>
      rw [shifts, List.countP_cons, ← shifts, ← ih, shifted, List.filterMap_cons, ← shifted]
      rcases step.action with _ | (_ | rule | target | _) <;> rfl

end TraceStep

/-! ### The nodes that a move adds -/

/-- What a look at a configuration means for the trees. To go on is to add one node, over the roots
that are taken away; to accept is to have one root. -/
inductive Turn.Builds (g : Grammar) (c : Config) : Turn → Prop
  | leaf {step : TraceStep} {next : Config} {target : Nat}
      (ha : step.action = some (.shift target))
      (hroots : next.roots = c.arena.nodes.size :: c.roots)
      (harena : next.arena = ⟨c.arena.nodes.push ⟨step.token, [], none⟩⟩) :
      Builds g c (.moved step next)
  | node {step : TraceStep} {next : Config} {rule : Nat} {p : Production}
      (ha : step.action = some (.reduce rule)) (hp : g.rule? rule = some p)
      (hle : p.rhs.length ≤ c.roots.length)
      (hroots : next.roots = c.arena.nodes.size :: c.roots.drop p.rhs.length)
      (harena : next.arena = ⟨c.arena.nodes.push
        ⟨p.lhs, (c.roots.take p.rhs.length).reverse, some rule⟩⟩) :
      Builds g c (.moved step next)
  | root {step : TraceStep} {root : NodeId} (ha : step.action = some .accept)
      (hroots : c.roots = [root]) : Builds g c (.ended step (.ok root))
  | failed {step : TraceStep} {failure : Failure} : Builds g c (.ended step (.error failure))
  | stuck : Builds g c .stuck

namespace Config

variable {g : Grammar} {t : Table} {c : Config}

/-- A reduction that moves on adds a node over the roots of its right-hand side. -/
theorem reduce_builds {state rule : Nat} {token : Symbol} {move : Move}
    (h : c.reduce g t state token rule = .ok move) :
    (∃ failure, move = .fail failure) ∨
      ∃ p target next, move = .reduce p target next ∧ g.rule? rule = some p ∧
        p.rhs.length ≤ c.roots.length ∧
        next.roots = c.arena.nodes.size :: c.roots.drop p.rhs.length ∧
        next.arena = ⟨c.arena.nodes.push
          ⟨p.lhs, (c.roots.take p.rhs.length).reverse, some rule⟩⟩ := by
  unfold reduce at h
  split at h
  · exact Or.inl ⟨_, (Except.ok.inj h).symm⟩
  · rename_i p hp
    dsimp only at h
    split at h
    · exact Or.inl ⟨_, (Except.ok.inj h).symm⟩
    split at h
    · exact Or.inl ⟨_, (Except.ok.inj h).symm⟩
    split at h
    · exact Or.inl ⟨_, (Except.ok.inj h).symm⟩
    · rename_i target _
      obtain ⟨⟨children, roots⟩, htake, h⟩ := bind_eq_ok.mp h
      obtain ⟨⟨node, arena⟩, hnode, h⟩ := bind_eq_ok.mp h
      cases h
      unfold takeRoots at htake
      split at htake
      · rename_i hle
        cases htake
        unfold Arena.node at hnode
        split at hnode
        · cases hnode
        · cases hnode
          exact Or.inr ⟨p, target, _, rfl, hp, hle, rfl, rfl⟩
      · cases htake

theorem turn_builds {number : Nat} {turn : Turn} (h : c.turn g t number = .ok turn) :
    turn.Builds g c := by
  unfold Config.turn at h
  split at h
  · cases h
    exact .stuck
  · cases h
    exact .failed
  · rename_i state token rest htop hinput
    obtain ⟨move, hmove, h⟩ := bind_eq_ok.mp h
    generalize t.action? state token = action at hmove h
    rcases action with _ | (_ | rule | target | _)
    · cases hmove
      cases h
      exact .failed
    · have haccept : c.accept state token = move := Except.ok.inj hmove
      unfold accept at haccept
      split at haccept
      · rename_i root hroots
        subst haccept
        cases h
        exact .root rfl hroots
      · subst haccept
        cases h
        exact .failed
    · rcases reduce_builds hmove with
        ⟨failure, rfl⟩ | ⟨p, target, next, rfl, hp, hle, hroots, harena⟩
      · cases h
        exact .failed
      · cases h
        exact .node rfl hp hle hroots harena
    · cases hmove
      cases h
      exact .leaf rfl rfl rfl
    · cases hmove
      cases h
      exact .failed

/-- What the moves of a run have built. -/
structure Grown (g : Grammar) (trace : List TraceStep) (c : Config) : Prop where
  wellFormed : c.arena.WellFormed
  /-- Every move added a node. -/
  size_eq : c.arena.nodes.size = trace.length
  /-- Every move was a shift or a reduction. -/
  length_eq : trace.length = TraceStep.shifts trace + TraceStep.reductions trace
  forest : c.arena.Forest c.roots
  /-- The texts of the roots are those of the replay. -/
  texts : ∃ texts, TraceStep.replay g trace = some texts ∧
    c.roots.map c.arena.text? = texts.map some

namespace Grown

variable {trace : List TraceStep} {step : TraceStep} {next : Config}

theorem initial (g : Grammar) (tokens : List Symbol) : Grown g [] (.initial tokens) :=
  ⟨Arena.wellFormed_empty, rfl, rfl, Arena.forest_empty, [], rfl, rfl⟩

/-- A step that adds a node over some of the roots, and the text of that node to the replay. -/
theorem push (h : c.Grown g trace) {taken below : List NodeId} {n : Node}
    (hroots : c.roots = taken ++ below) (hn : n.children = taken.reverse)
    (hnext : next.roots = c.arena.nodes.size :: below)
    (harena : next.arena = ⟨c.arena.nodes.push n⟩)
    (hkind : TraceStep.shifts [step] + TraceStep.reductions [step] = 1)
    (hreplay : ∀ texts : List Text, taken.length ≤ texts.length →
      TraceStep.replayStep g texts step = some
        (Tree.bracketed n.symbol (texts.take taken.length).reverse :: texts.drop taken.length)) :
    next.Grown g (trace ++ [step]) := by
  obtain ⟨texts, hbefore, htexts⟩ := h.texts
  have hforest := h.forest
  rw [hroots] at hforest htexts
  have hlength : taken.length ≤ texts.length := by
    have heq := congrArg List.length htexts
    simp only [List.length_map, List.length_append] at heq
    omega
  refine ⟨?_, ?_, ?_, ?_, _, ?_, hnext ▸ harena ▸ hforest.map_text?_push h.wellFormed hn htexts⟩
  · rw [harena]
    exact h.wellFormed.push fun child hchild =>
      hforest.lt_size (List.mem_append_left _ (List.mem_reverse.mp (hn ▸ hchild)))
  · rw [harena, Array.size_push, h.size_eq, List.length_append, List.length_singleton]
  · rw [TraceStep.shifts_append, TraceStep.reductions_append, List.length_append, h.length_eq,
      List.length_singleton, ← hkind]
    exact Nat.add_add_add_comm _ _ _ _
  · rw [hnext, harena]
    exact hforest.push (hn ▸ List.reverse_perm taken)
  · rw [TraceStep.replay_append_singleton, hbefore, Option.bind_some, hreplay texts hlength]

end Grown

theorem Reached.grown {tokens : List Symbol} {trace : List TraceStep}
    (h : c.Reached g t tokens trace) : c.Grown g trace := by
  induction h with
  | initial => exact .initial g tokens
  | @moved trace c next step _ hturn ih =>
      cases turn_builds hturn with
      | leaf ha hroots harena =>
          have hkind : TraceStep.shifts [step] + TraceStep.reductions [step] = 1 := by
            simp [TraceStep.shifts, TraceStep.reductions, ha, Action.isShift, Action.isReduce]
          refine ih.push (List.nil_append _).symm rfl hroots harena hkind fun texts _ => ?_
          simp [TraceStep.replayStep, ha, Tree.bracketed]
      | node ha hp hle hroots harena =>
          have hkind : TraceStep.shifts [step] + TraceStep.reductions [step] = 1 := by
            simp [TraceStep.shifts, TraceStep.reductions, ha, Action.isShift, Action.isReduce]
          refine ih.push (List.take_append_drop _ _).symm rfl hroots harena hkind
            fun texts hlength => ?_
          rw [List.length_take, Nat.min_eq_left hle] at hlength ⊢
          simp only [TraceStep.replayStep, ha, hp, if_pos hlength]

end Config

/-! ### Leaves -/

namespace Snapshot

variable {g : Grammar} {t : Table} {s s' : Snapshot}

/-- A snapshot that moves on reads a token, or puts a tree in the place of others. -/
theorem step_moves (h : s.step g t = .moves s') :
    (∃ target token, s.input = token :: s'.input ∧
      s'.frames = ⟨target, .leaf token⟩ :: s.frames) ∨
    ∃ target rule symbol n, s'.input = s.input ∧
      s'.frames = ⟨target, .node rule symbol (Frame.trees (s.frames.take n))⟩ ::
        s.frames.drop n := by
  unfold step at h
  split at h
  · cases h
  · rename_i token rest hinput
    unfold move at h
    split at h
    · cases h
    · cases h
    · unfold accept at h
      split at h <;> cases h
    · cases h
      exact Or.inl ⟨_, token, hinput, rfl⟩
    · unfold reduce at h
      split at h
      · cases h
      dsimp only at h
      split at h
      · cases h
      split at h
      · cases h
      · cases h
        exact Or.inr ⟨_, _, _, _, rfl, rfl⟩

/-- The leaves of the trees on the stack and the input that is left are all tokens. -/
theorem yields_append_input (h : s.step g t = .moves s') :
    ParseTree.yields (Frame.trees s'.frames) ++ s'.input =
      ParseTree.yields (Frame.trees s.frames) ++ s.input := by
  rcases step_moves h with ⟨target, token, hinput, hframes⟩ |
    ⟨target, rule, symbol, n, hinput, hframes⟩
  · rw [hframes, hinput, Frame.trees_cons, ParseTree.yields_append]
    simp [ParseTree.yields, ParseTree.yield]
  · have hsplit := congrArg Frame.trees (List.take_append_drop n s.frames)
    rw [Frame.trees_append] at hsplit
    rw [hframes, hinput, Frame.trees_cons, ← hsplit, ParseTree.yields_append,
      ParseTree.yields_append]
    simp [ParseTree.yields, ParseTree.yield]

end Snapshot

/-- The only root of a configuration has the tokens that were shifted as its leaves. -/
theorem Config.Reached.leaves_eq {g : Grammar} {t : Table} {tokens : List Symbol}
    {trace : List TraceStep} {c : Config} (h : c.Reached g t tokens trace) {root : NodeId}
    (hroots : c.roots = [root]) : c.arena.leaves root = .ok (TraceStep.shifted trace) := by
  obtain ⟨s, hsteps, htracks⟩ := h.exists_tracks
  have htokens : ParseTree.yields (Frame.trees s.frames) ++ s.input = tokens := by
    refine hsteps.invariant
      (P := fun s => ParseTree.yields (Frame.trees s.frames) ++ s.input = tokens) ?_ rfl
    exact fun hs hstep => (Snapshot.yields_append_input hstep).trans hs
  have hyields : ParseTree.yields (Frame.trees s.frames) = TraceStep.shifted trace :=
    List.append_cancel_right (htokens.trans (htracks.input_eq ▸ h.shifted_append).symm)
  obtain ⟨f, hframes⟩ : ∃ f, s.frames = [f] :=
    List.length_eq_one_iff.mp (by rw [← htracks.length_roots, hroots]; rfl)
  have hshape : c.arena.shape? root = some f.tree := by
    simpa [hroots, hframes] using htracks.roots_eq
  rw [Arena.leaves_eq_yield htracks.wellFormed hshape, ← hyields, hframes]
  simp [ParseTree.yields]

/-! ### Accepting runs -/

/-- An accepting run has come to a configuration with one root, which the last step accepts. -/
theorem ParseResult.Stops.accepts {g : Grammar} {t : Table} {tokens : List Symbol} {limit : Nat}
    {r : ParseResult} (h : r.Stops g t tokens limit) {root : NodeId} (ho : r.outcome = .ok root) :
    ∃ (before : List TraceStep) (c : Config) (last : TraceStep),
      c.Reached g t tokens before ∧ c.roots = [root] ∧ r.arena = c.arena ∧
      r.trace = before ++ [last] ∧ last.action = some .accept := by
  cases h with
  | limit _ _ _ hlimit => cases ho.symm.trans hlimit
  | @ended before c last hc _ hturn htrace harena =>
      rw [ho] at hturn
      cases Config.turn_builds hturn with
      | root ha hroots => exact ⟨before, c, last, hc, hroots, harena, htrace, ha⟩

/-- The tree of an accepting run is determined by its trace, whatever the table. Replaying the
shifts and reductions on texts gives the text of the tree. The store has a node for each of them,
and nothing else: every node but the root is the child of exactly one node, and only once, and all
are below the root. The leaves are the tokens that were shifted. -/
theorem Engine.tree_replay (g : Grammar) (t : Table) (limit : Nat) (tokens : List Symbol) :
    ∃ r, parse g t limit tokens = .ok r ∧ (r.accepted = true → ∃ root, r.root? = some root ∧
      (∃ tree, r.arena.tree root = .ok tree ∧
        TraceStep.replay g r.trace = some [tree.toText]) ∧
      r.arena.nodes.size = TraceStep.shifts r.trace + TraceStep.reductions r.trace ∧
      r.arena.nodes.size + 1 = r.trace.length ∧
      (∀ id, id < r.arena.nodes.size → id ≠ root →
        ∃ parent, r.arena.childCount parent id = 1 ∧
          ∀ other, other ≠ parent → r.arena.childCount other id = 0) ∧
      (∀ id, id < r.arena.nodes.size → Relation.ReflTransGen r.arena.Child root id) ∧
      r.arena.leaves root = .ok (tokens.take (TraceStep.shifts r.trace))) := by
  obtain ⟨r, hr, hstops⟩ := parse_stops g t limit tokens
  refine ⟨r, hr, fun haccepted => ?_⟩
  obtain ⟨root, ho⟩ := ParseResult.accepted_iff.mp haccepted
  obtain ⟨before, c, last, hc, hroots, harena, htrace, haction⟩ := hstops.accepts ho
  have hgrown := hc.grown
  have hforest := hgrown.forest
  rw [hroots] at hforest
  -- the last step neither shifts nor reduces
  have hshifts : TraceStep.shifts r.trace = TraceStep.shifts before := by
    rw [htrace, TraceStep.shifts_append]
    simp [TraceStep.shifts, haction, Action.isShift]
  have hreductions : TraceStep.reductions r.trace = TraceStep.reductions before := by
    rw [htrace, TraceStep.reductions_append]
    simp [TraceStep.reductions, haction, Action.isReduce]
  rw [hshifts, hreductions, harena]
  refine ⟨root, by rw [ParseResult.root?, ho]; rfl, ?_, ?_, ?_, ?_, ?_, ?_⟩
  · obtain ⟨texts, hreplay, htexts⟩ := hgrown.texts
    rw [hroots] at htexts
    obtain ⟨text, others, rfl, htext, hothers⟩ := List.map_eq_cons_iff.mp htexts.symm
    obtain rfl : others = [] := List.map_eq_nil_iff.mp hothers
    obtain ⟨tree, htree, rfl⟩ := Option.map_eq_some_iff.mp htext.symm
    refine ⟨tree, by rw [Arena.tree, htree], ?_⟩
    rw [htrace, TraceStep.replay_append_singleton, hreplay, Option.bind_some,
      TraceStep.replayStep, haction]
  · exact hgrown.size_eq.trans hgrown.length_eq
  · rw [hgrown.size_eq, htrace, List.length_append, List.length_singleton]
  · exact fun id hid hne => hforest.exists_parent hid (by simpa using hne)
  · exact fun id hid => hforest.below_root hgrown.wellFormed hid
  · rw [hc.leaves_eq hroots, ← TraceStep.length_shifted, ← hc.shifted_append, List.take_left]

/-! ### A table that no grammar has -/

namespace Mismatch

def grammar : Grammar :=
  ⟨[⟨"S", ["z"]⟩], by simp, by decide⟩

/-- It shifts `y` and reduces it by `S -> z`. -/
def table : Table :=
  ⟨.lr0, #[⟨(∅ : SymbolMap Action).insert "y" (.shift 1), (∅ : SymbolMap Nat).insert "S" 2⟩,
    ⟨(∅ : SymbolMap Action).insert "$" (.reduce 1), ∅⟩,
    ⟨(∅ : SymbolMap Action).insert "$" .accept, ∅⟩], #[]⟩

end Mismatch

/-- The children of a node need not be the symbols of its production. -/
theorem Engine.tree_replay_mismatch :
    ∃ r, parse Mismatch.grammar Mismatch.table 9 ["y", "$"] = .ok r ∧ r.accepted = true ∧
      ∃ root, r.root? = some root ∧
        (∃ tree, r.arena.tree root = .ok tree ∧ tree.toText = ("S(y)" : Text) ∧
          TraceStep.replay Mismatch.grammar r.trace = some [tree.toText]) ∧
        r.arena.leaves root = .ok ["y"] := by
  obtain ⟨r, hr, h⟩ := tree_replay Mismatch.grammar Mismatch.table 9 ["y", "$"]
  have hrun : (parse Mismatch.grammar Mismatch.table 9 ["y", "$"]).map (fun r =>
      (r.accepted, TraceStep.shifts r.trace, TraceStep.replay Mismatch.grammar r.trace)) =
        .ok (true, 1, some [("S(y)" : Text)]) := by
    decide +kernel
  rw [hr] at hrun
  simp only [Except.map, Except.ok.injEq, Prod.mk.injEq] at hrun
  obtain ⟨haccepted, hshifts, hreplay⟩ := hrun
  obtain ⟨root, hroot, ⟨tree, htree, htext⟩, -, -, -, -, hleaves⟩ := h haccepted
  rw [hshifts] at hleaves
  have htexts : [tree.toText] = [("S(y)" : Text)] :=
    Option.some.inj (htext.symm.trans hreplay)
  exact ⟨r, hr, haccepted, root, hroot, ⟨tree, htree, List.head_eq_of_cons_eq htexts, htext⟩,
    hleaves⟩

end ShiftReduce
