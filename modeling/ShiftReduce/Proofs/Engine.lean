import ShiftReduce.Engine
import ShiftReduce.Proofs.Tree

/-!
# ShiftReduce.Proofs.Engine

**The engine with trees instead of stored nodes.** A configuration keeps its trees in a store and
its stack as a list of alternating cells. A `Snapshot` is the same configuration with a frame for
every symbol on the stack: the tree of the symbol and the state above it. `Snapshot.step` is the
engine on snapshots, for every table, generated or not.

The engine follows it move by move (`Config.Tracks.turn`). `Engine.parse_spec` says so of whole
runs: the engine always returns a result, and the result is the one of the snapshot that was
reached. The trace has a step for every move, and one for the end of the run unless the limit was
reached. No later module looks at cells or at the store.
-/

namespace ShiftReduce

/-! ### Snapshots -/

/-- A symbol on the stack: its tree, and the state above it. -/
structure Frame where
  state : Nat
  tree : ParseTree

namespace Frame

def top : List Frame → Nat
  | [] => 0
  | f :: _ => f.state

/-- The trees from the bottom up, which is from left to right. -/
def trees (fs : List Frame) : List ParseTree :=
  (fs.map (·.tree)).reverse

/-- The symbols from the bottom up. -/
def symbols (fs : List Frame) : List Symbol :=
  (trees fs).map ParseTree.symbol

@[simp] theorem trees_nil : trees [] = [] := rfl

@[simp] theorem trees_cons (f : Frame) (fs : List Frame) :
    trees (f :: fs) = trees fs ++ [f.tree] := by
  simp [trees]

@[simp] theorem trees_append (fs fs' : List Frame) : trees (fs ++ fs') = trees fs' ++ trees fs := by
  simp [trees]

@[simp] theorem mem_trees {fs : List Frame} {tree : ParseTree} :
    tree ∈ trees fs ↔ ∃ f ∈ fs, f.tree = tree := by
  simp [trees]

@[simp] theorem length_trees (fs : List Frame) : (trees fs).length = fs.length := by
  simp [trees]

@[simp] theorem symbols_nil : symbols [] = [] := rfl

@[simp] theorem symbols_cons (f : Frame) (fs : List Frame) :
    symbols (f :: fs) = symbols fs ++ [f.tree.symbol] := by
  simp [symbols]

@[simp] theorem symbols_append (fs fs' : List Frame) :
    symbols (fs ++ fs') = symbols fs' ++ symbols fs := by
  simp [symbols]

@[simp] theorem length_symbols (fs : List Frame) : (symbols fs).length = fs.length := by
  simp [symbols]

/-- The cells of the stack, over state 0 at the bottom. -/
def cells : List Frame → List Cell
  | [] => [.state 0]
  | f :: fs => .state f.state :: .symbol f.tree.symbol :: cells fs

theorem topState?_cells (fs : List Frame) : topState? (cells fs) = some (top fs) := by
  cases fs <;> rfl

theorem length_cells (fs : List Frame) : (cells fs).length = 2 * fs.length + 1 := by
  induction fs with
  | nil => rfl
  | cons f fs ih =>
      rw [cells, List.length_cons, List.length_cons, ih, List.length_cons]
      omega

/-- Two cells go with every frame. -/
theorem drop_cells {n : Nat} {fs : List Frame} (h : n ≤ fs.length) :
    (cells fs).drop (2 * n) = cells (fs.drop n) := by
  induction n generalizing fs with
  | zero => rfl
  | succ n ih =>
      cases fs with
      | nil => simp at h
      | cons f fs => exact ih (Nat.le_of_succ_le_succ h)

end Frame

/-- A configuration with trees in place of the places of their roots. -/
structure Snapshot where
  /-- The symbols on the stack, the top first. -/
  frames : List Frame
  input : List Symbol

/-- What the engine does next. -/
inductive Outcome where
  | moves (next : Snapshot)
  | accepts (tree : ParseTree)
  | fails (failure : Failure)

/-- The engine stops here. -/
def Outcome.Final (o : Outcome) : Prop :=
  ∀ next, o ≠ .moves next

namespace Snapshot

/-- Before the first move. -/
def initial (tokens : List Symbol) : Snapshot :=
  ⟨[], tokens⟩

/-- Reduces by a production, by its number. -/
def reduce (g : Grammar) (t : Table) (s : Snapshot) (token : Symbol) (rule : Nat) : Outcome :=
  match g.rule? rule with
  | none => .fails (.invalidProduction (Frame.top s.frames) token rule)
  | some p =>
    let n := p.rhs.length
    if s.frames.length < n then
      .fails (.underflow (Frame.top s.frames) token (2 * n) (2 * s.frames.length + 1))
    else
      let below := s.frames.drop n
      match t.goto? (Frame.top below) p.lhs with
      | none => .fails (.noGoto (Frame.top below) token p.lhs)
      | some target =>
        .moves ⟨⟨target, .node rule p.lhs (Frame.trees (s.frames.take n))⟩ :: below, s.input⟩

/-- Accepts the tree, if it is the only one. -/
def accept (s : Snapshot) (token : Symbol) : Outcome :=
  match s.frames with
  | [f] => .accepts f.tree
  | fs => .fails (.incompleteTree (Frame.top fs) token fs.length)

/-- What an action calls for. -/
def move (g : Grammar) (t : Table) (s : Snapshot) (token : Symbol) (rest : List Symbol) :
    Option Action → Outcome
  | none | some .error => .fails (.noAction (Frame.top s.frames) token)
  | some .accept => s.accept token
  | some (.shift target) => .moves ⟨⟨target, .leaf token⟩ :: s.frames, rest⟩
  | some (.reduce rule) => s.reduce g t token rule

/-- What the table calls for. -/
def step (g : Grammar) (t : Table) (s : Snapshot) : Outcome :=
  match s.input with
  | [] => .fails (.endOfInput (Frame.top s.frames))
  | token :: rest => s.move g t token rest (t.action? (Frame.top s.frames) token)

theorem step_shift {g : Grammar} {t : Table} {fs : List Frame} {token : Symbol} {rest : List Symbol}
    {target : Nat} (ha : t.action? (Frame.top fs) token = some (.shift target)) :
    step g t ⟨fs, token :: rest⟩ = .moves ⟨⟨target, .leaf token⟩ :: fs, rest⟩ := by
  simp only [step, ha, move]

/-- A reduction puts one tree in the place of the trees of its right-hand side. -/
theorem step_reduce {g : Grammar} {t : Table} {taken below : List Frame} {token : Symbol}
    {rest : List Symbol} {rule : Nat} {p : Production} {target : Nat}
    (ha : t.action? (Frame.top (taken ++ below)) token = some (.reduce rule))
    (hp : g.rule? rule = some p) (hlength : taken.length = p.rhs.length)
    (hgoto : t.goto? (Frame.top below) p.lhs = some target) :
    step g t ⟨taken ++ below, token :: rest⟩ =
      .moves ⟨⟨target, .node rule p.lhs (Frame.trees taken)⟩ :: below, token :: rest⟩ := by
  have hdrop : (taken ++ below).drop p.rhs.length = below := List.drop_left' hlength
  have htake : (taken ++ below).take p.rhs.length = taken := List.take_left' hlength
  have hle : ¬ (taken ++ below).length < p.rhs.length := by
    rw [List.length_append]
    omega
  simp only [step, ha, move, reduce, hp, if_neg hle, hdrop, hgoto, htake]

/-- One snapshot leads to another in a number of moves. -/
inductive Steps (g : Grammar) (t : Table) : Nat → Snapshot → Snapshot → Prop
  | refl (s : Snapshot) : Steps g t 0 s s
  | head {n : Nat} {s s' s'' : Snapshot} (h : s.step g t = .moves s') (hs : Steps g t n s' s'') :
      Steps g t (n + 1) s s''

end Snapshot

/-! ### The engine follows the snapshots -/

/-- The configuration is the one of the snapshot. -/
structure Config.Tracks (c : Config) (s : Snapshot) : Prop where
  stack_eq : c.stack = Frame.cells s.frames
  /-- The roots have the trees of the frames. -/
  roots_eq : c.roots.map c.arena.shape? = (s.frames.map (·.tree)).map some
  input_eq : c.input = s.input
  wellFormed : c.arena.WellFormed

/-- The move of a configuration is what the engine does next on snapshots. -/
inductive Move.Shows (c : Config) : Except Missing Move → Outcome → Prop
  | shift {token : Symbol} {target : Nat} {next : Config} {s : Snapshot} (h : next.Tracks s) :
      Shows c (.ok (.shift token target next)) (.moves s)
  | reduce {p : Production} {target : Nat} {next : Config} {s : Snapshot} (h : next.Tracks s) :
      Shows c (.ok (.reduce p target next)) (.moves s)
  | accept {root : NodeId} {tree : ParseTree} (h : c.arena.shape? root = some tree) :
      Shows c (.ok (.accept root)) (.accepts tree)
  | fail {failure : Failure} : Shows c (.ok (.fail failure)) (.fails failure)

/-- A look at a configuration leads to what the engine does next on snapshots. -/
inductive Turn.Shows (c : Config) : Except Missing Turn → Outcome → Prop
  | moved {step : TraceStep} {next : Config} {s : Snapshot} (h : next.Tracks s) :
      Shows c (.ok (.moved step next)) (.moves s)
  | accepted {step : TraceStep} {root : NodeId} {tree : ParseTree}
      (h : c.arena.shape? root = some tree) :
      Shows c (.ok (.ended step (.ok root))) (.accepts tree)
  | failed {step : TraceStep} {failure : Failure} :
      Shows c (.ok (.ended step (.error failure))) (.fails failure)

namespace Config.Tracks

variable {g : Grammar} {t : Table} {c : Config} {s : Snapshot}

theorem initial (tokens : List Symbol) : (Config.initial tokens).Tracks (.initial tokens) :=
  ⟨rfl, rfl, rfl, Arena.wellFormed_empty⟩

theorem length_roots (h : c.Tracks s) : c.roots.length = s.frames.length := by
  simpa using congrArg List.length h.roots_eq

theorem topState?_stack (h : c.Tracks s) : topState? c.stack = some (Frame.top s.frames) := by
  rw [h.stack_eq, Frame.topState?_cells]

/-- Reading a token adds a leaf. -/
theorem shift (h : c.Tracks s) (token : Symbol) (rest : List Symbol) (target : Nat) :
    Move.Shows c (.ok (c.shift token rest target))
      (.moves ⟨⟨target, .leaf token⟩ :: s.frames, rest⟩) := by
  obtain ⟨hextends, hleaf⟩ := Arena.leaf_spec h.wellFormed token
  refine .shift ⟨?_, ?_, rfl, hextends.wellFormed⟩
  · rw [h.stack_eq]
    rfl
  · exact congrArg₂ List.cons hleaf (hextends.map_shape? h.roots_eq)

/-- The cells and the roots that a reduction takes away belong to the same frames. -/
theorem reduce (h : c.Tracks s) (token : Symbol) (rule : Nat) :
    Move.Shows c (c.reduce g t (Frame.top s.frames) token rule) (s.reduce g t token rule) := by
  rw [Config.reduce, Snapshot.reduce]
  cases hp : g.rule? rule with
  | none => exact .fail
  | some p =>
      dsimp only
      by_cases hlt : s.frames.length < p.rhs.length
      · have hcells : c.stack.length ≤ 2 * p.rhs.length := by
          rw [h.stack_eq, Frame.length_cells]
          omega
        rw [if_pos hcells, if_pos hlt, h.stack_eq, Frame.length_cells]
        exact .fail
      · have hcells : ¬ c.stack.length ≤ 2 * p.rhs.length := by
          rw [h.stack_eq, Frame.length_cells]
          omega
        have hle : p.rhs.length ≤ s.frames.length := Nat.le_of_not_lt hlt
        rw [if_neg hcells, if_neg hlt, h.stack_eq, Frame.drop_cells hle, Frame.topState?_cells]
        dsimp only
        cases t.goto? (Frame.top (s.frames.drop p.rhs.length)) p.lhs with
        | none => exact .fail
        | some target =>
            -- the roots that are taken away and those that stay have the trees of their frames
            have hchildren : (c.roots.take p.rhs.length).reverse.map c.arena.shape? =
                (Frame.trees (s.frames.take p.rhs.length)).map some := by
              rw [Frame.trees, List.map_reverse, List.map_take, h.roots_eq, List.map_reverse,
                List.map_take, List.map_take]
            have hroots : (c.roots.drop p.rhs.length).map c.arena.shape? =
                ((s.frames.drop p.rhs.length).map (·.tree)).map some := by
              rw [List.map_drop, h.roots_eq, List.map_drop, List.map_drop]
            obtain ⟨node, arena, hnode, hextends, hshape⟩ :=
              Arena.node_spec h.wellFormed p.lhs rule hchildren
            simp only [takeRoots, if_pos (h.length_roots ▸ hle), ok_bind, hnode]
            exact .reduce ⟨rfl, congrArg₂ List.cons hshape (hextends.map_shape? hroots),
              h.input_eq, hextends.wellFormed⟩

theorem accept (h : c.Tracks s) (token : Symbol) :
    Move.Shows c (.ok (c.accept (Frame.top s.frames) token)) (s.accept token) := by
  have hroots := h.roots_eq
  rw [Config.accept, Snapshot.accept]
  generalize s.frames = frames at hroots
  rcases frames with _ | ⟨f, _ | ⟨f', fs⟩⟩
  · obtain hnil : c.roots = [] := by simpa using hroots
    rw [hnil]
    exact .fail
  · obtain ⟨root, hroot, hshape⟩ :
        ∃ root, c.roots = [root] ∧ c.arena.shape? root = some f.tree := by simpa using hroots
    rw [hroot]
    exact .accept hshape
  · rcases hrs : c.roots with _ | ⟨r, _ | ⟨r', rs⟩⟩
    · simp [hrs] at hroots
    · simp [hrs] at hroots
    · have hlength : (r :: r' :: rs).length = (f :: f' :: fs).length := by
        simpa [hrs] using congrArg List.length hroots
      simp only [hlength]
      exact .fail

theorem move (h : c.Tracks s) (token : Symbol) (rest : List Symbol) (action : Option Action) :
    Move.Shows c (c.move g t (Frame.top s.frames) token rest action)
      (s.move g t token rest action) := by
  rcases action with _ | (_ | rule | target | _)
  · exact .fail
  · exact h.accept token
  · exact h.reduce token rule
  · exact h.shift token rest target
  · exact .fail

/-- One look at a configuration. -/
theorem turn (h : c.Tracks s) (number : Nat) :
    Turn.Shows c (c.turn g t number) (s.step g t) := by
  rw [Config.turn, h.topState?_stack, h.input_eq, Snapshot.step]
  cases s.input with
  | nil => exact .failed
  | cons token rest =>
      dsimp only
      generalize t.action? (Frame.top s.frames) token = action
      have hmove := h.move (g := g) (t := t) token rest action
      generalize c.move g t (Frame.top s.frames) token rest action = move,
        s.move g t token rest action = outcome at hmove ⊢
      cases hmove with
      | shift hnext => exact .moved hnext
      | reduce hnext => exact .moved hnext
      | accept hshape => exact .accepted hshape
      | fail => exact .failed

end Config.Tracks

/-! ### Runs -/

namespace Snapshot.Steps

variable {g : Grammar} {t : Table} {m n : Nat} {s u v : Snapshot}

theorem single (h : s.step g t = .moves u) : Steps g t 1 s u :=
  .head h (.refl u)

theorem trans (h₁ : Steps g t m s u) (h₂ : Steps g t n u v) : Steps g t (m + n) s v := by
  induction h₁ with
  | refl => simpa using h₂
  | head h _ ih =>
      rw [Nat.add_right_comm]
      exact .head h (ih h₂)

/-- What every move keeps is kept. -/
theorem invariant {P : Snapshot → Prop}
    (hP : ∀ {s s' : Snapshot}, P s → s.step g t = .moves s' → P s') (h : Steps g t n s u)
    (hs : P s) : P u := by
  induction h with
  | refl => exact hs
  | head h _ ih => exact ih (hP hs h)

/-- Nothing comes after a final snapshot, so no run is longer than the one that leads there. -/
theorem le_of_final (h₁ : Steps g t m s u) (hu : (u.step g t).Final) (h₂ : Steps g t n s v) :
    n ≤ m := by
  induction h₁ generalizing n with
  | refl =>
      cases h₂ with
      | refl => exact Nat.le_refl _
      | head h => exact absurd h (hu _)
  | head h _ ih =>
      cases h₂ with
      | refl => exact Nat.zero_le _
      | head h' h₂ =>
          cases h.symm.trans h'
          exact Nat.succ_le_succ (ih hu h₂)

/-- A run is determined by where it starts and how long it is. -/
theorem unique (h₁ : Steps g t n s u) (h₂ : Steps g t n s v) : u = v := by
  induction h₁ with
  | refl =>
      cases h₂
      rfl
  | head h _ ih =>
      cases h₂ with
      | head h' h₂ =>
          cases h.symm.trans h'
          exact ih h₂

end Snapshot.Steps

/-- The result of a run that ends with an outcome. -/
inductive ParseResult.Shows (r : ParseResult) : Outcome → Prop
  | accepted {root : NodeId} {tree : ParseTree} (ho : r.outcome = .ok root)
      (hwf : r.arena.WellFormed) (h : r.arena.shape? root = some tree) : r.Shows (.accepts tree)
  | failed {failure : Failure} (ho : r.outcome = .error failure) : r.Shows (.fails failure)

/-- The result of a run with the given fuel, after the given number of steps of the trace. Either
the fuel is used up, or a final snapshot is reached before. -/
inductive ParseResult.Ends (g : Grammar) (t : Table) (limit fuel steps : Nat) (s : Snapshot)
    (r : ParseResult) : Prop
  | limit {u : Snapshot} (hs : s.Steps g t fuel u) (ho : r.outcome = .error (.stepLimit limit))
      (htrace : r.trace.length = steps + fuel)
  | final {n : Nat} {u : Snapshot} (hn : n < fuel) (hs : s.Steps g t n u) (h : r.Shows (u.step g t))
      (htrace : r.trace.length = steps + (n + 1))

namespace ParseResult

variable {r : ParseResult}

theorem Shows.final {o : Outcome} (h : r.Shows o) : o.Final := by
  cases h <;> simp [Outcome.Final]

theorem accepted_iff : r.accepted = true ↔ ∃ root, r.outcome = .ok root := by
  cases h : r.outcome <;> simp [accepted, h, Except.isOk, Except.toBool]

/-- If the moves of a run lead to acceptance, the run accepts unless its limit is reached before. -/
theorem Ends.of_accepts {g : Grammar} {t : Table} {limit n : Nat} {s u : Snapshot}
    {tree : ParseTree} (h : r.Ends g t limit limit 0 s) (hs : s.Steps g t n u)
    (hu : u.step g t = .accepts tree) :
    (r.accepted = true ↔ n + 1 ≤ limit) ∧ (r.accepted = true → r.trace.length = n + 1) := by
  have hfinal : (u.step g t).Final := by simp [hu, Outcome.Final]
  cases h with
  | limit hs' ho _ =>
      have hle : limit ≤ n := hs.le_of_final hfinal hs'
      have hrefused : ¬ r.accepted = true := by simp [accepted_iff, ho]
      exact ⟨⟨fun h => absurd h hrefused, fun h => by omega⟩, fun h => absurd h hrefused⟩
  | @final m v hm hs' hshows htrace =>
      -- both runs end at a final snapshot, so they are one run
      obtain rfl : m = n :=
        Nat.le_antisymm (hs.le_of_final hfinal hs') (hs'.le_of_final hshows.final hs)
      obtain rfl : u = v := hs.unique hs'
      rw [hu] at hshows
      cases hshows with
      | accepted ho =>
          have haccepted : r.accepted = true := accepted_iff.mpr ⟨_, ho⟩
          exact ⟨⟨fun _ => hm, fun _ => haccepted⟩, fun _ => by omega⟩

end ParseResult

namespace Engine

variable {g : Grammar} {t : Table}

theorem run_ends (limit : Nat) {fuel : Nat} : ∀ {number : Nat} {c : Config} {s : Snapshot}
    {trace : Array TraceStep}, c.Tracks s →
    ∃ r, run g t limit fuel number c trace = .ok r ∧ r.Ends g t limit fuel trace.size s := by
  induction fuel with
  | zero =>
      intro number c s trace h
      exact ⟨_, rfl, .limit (.refl s) rfl (by simp)⟩
  | succ fuel ih =>
      intro number c s trace h
      have hturn := h.turn (g := g) (t := t) number
      rw [run]
      generalize hc : c.turn g t number = turn, ho : s.step g t = outcome at hturn ⊢
      cases hturn with
      | @moved step next u hnext =>
          obtain ⟨r, hr, hends⟩ := ih hnext
          refine ⟨r, hr, ?_⟩
          cases hends with
          | limit hs houtcome htrace =>
              exact .limit (.head ho hs) houtcome (by rw [htrace, Array.size_push]; omega)
          | final hn hs hshows htrace =>
              exact .final (Nat.succ_lt_succ hn) (.head ho hs) hshows
                (by rw [htrace, Array.size_push]; omega)
      | accepted hshape =>
          exact ⟨_, rfl, .final (Nat.succ_pos _) (.refl s) (ho ▸ .accepted rfl h.wellFormed hshape)
            (by simp)⟩
      | failed =>
          exact ⟨_, rfl, .final (Nat.succ_pos _) (.refl s) (ho ▸ .failed rfl) (by simp)⟩

/-- The engine always returns a result, and it is the one of the snapshot that was reached. -/
theorem parse_spec (g : Grammar) (t : Table) (limit : Nat) (tokens : List Symbol) :
    ∃ r, parse g t limit tokens = .ok r ∧ r.Ends g t limit limit 0 (.initial tokens) :=
  run_ends limit (.initial tokens)

end Engine

end ShiftReduce
