import ShiftReduce.Proofs.Engine

/-!
# ShiftReduce.Proofs.Engine.Trace

**What a run leaves behind, for every table.** The table need not come from a grammar: it may shift
and go to states that do not exist, reduce by productions that do not exist, or hold error actions.

`Config.Reached` relates the configurations of a run to the steps of its trace so far, and
`ParseResult.Stops` says how a run ends: at its limit, or with a step that decides it. Both are read
off `Config.turn`, whose two ways to record a step are inverted once (`Config.turn_moved`,
`Config.turn_ended`). Every configuration that is reached tracks a snapshot, so its stack alternates
between states and symbols and has a root for every symbol; that the engine can neither miss a root
nor lose its top state follows from that alone.
-/

namespace ShiftReduce

/-! ### Cells -/

namespace Cell

/-- The symbol in a cell, if it holds one. -/
def symbol? : Cell → Option Symbol
  | .state _ => none
  | .symbol name => some name

/-- The symbols on a stack, from the bottom up. -/
def symbols (stack : List Cell) : List Symbol :=
  (stack.filterMap symbol?).reverse

end Cell

/-- States and symbols take turns on a stack, from state 0 at the bottom to a state on top. -/
structure Alternates (stack : List Cell) : Prop where
  odd_length : stack.length % 2 = 1
  bottom : stack.reverse[0]? = some (.state 0)
  /-- The cells at even places are states, counted from the bottom. -/
  even_state : ∀ k cell, stack.reverse[2 * k]? = some cell → ∃ number, cell = .state number
  /-- The cells at odd places are symbols. -/
  odd_symbol : ∀ k cell, stack.reverse[2 * k + 1]? = some cell → ∃ name, cell = .symbol name

namespace Frame

theorem symbols_cells (fs : List Frame) : Cell.symbols (cells fs) = symbols fs := by
  induction fs with
  | nil => rfl
  | cons f fs ih =>
      rw [symbols_cons, ← ih]
      exact List.reverse_cons

/-- The two cells of a frame, from the bottom up. -/
def pair (f : Frame) : List Cell :=
  [.symbol f.tree.symbol, .state f.state]

theorem reverse_cells (fs : List Frame) :
    (cells fs).reverse = .state 0 :: fs.reverse.flatMap pair := by
  induction fs with
  | nil => rfl
  | cons f fs ih => simp [cells, ih, pair]

theorem getElem?_flatMap_pair (fs : List Frame) (k : Nat) :
    (fs.flatMap pair)[2 * k]? = fs[k]?.map (fun f => .symbol f.tree.symbol) ∧
      (fs.flatMap pair)[2 * k + 1]? = fs[k]?.map (fun f => .state f.state) := by
  induction fs generalizing k with
  | nil => exact ⟨rfl, rfl⟩
  | cons f fs ih =>
      cases k with
      | zero => exact ⟨rfl, rfl⟩
      | succ k => exact ih k

/-- A stack of frames alternates. -/
theorem alternates_cells (fs : List Frame) : Alternates (cells fs) where
  odd_length := by
    rw [length_cells]
    omega
  bottom := by
    rw [reverse_cells]
    rfl
  even_state := by
    intro k cell h
    rw [reverse_cells] at h
    cases k with
    | zero => exact ⟨0, (Option.some.inj h).symm⟩
    | succ k =>
        have hcell := (getElem?_flatMap_pair fs.reverse k).2.symm.trans h
        obtain ⟨f, -, rfl⟩ := Option.map_eq_some_iff.mp hcell
        exact ⟨f.state, rfl⟩
  odd_symbol := by
    intro k cell h
    rw [reverse_cells] at h
    have hcell := (getElem?_flatMap_pair fs.reverse k).1.symm.trans h
    obtain ⟨f, -, rfl⟩ := Option.map_eq_some_iff.mp hcell
    exact ⟨f.tree.symbol, rfl⟩

end Frame

/-! ### One look at a configuration -/

/-- The step shows the configuration, and what the table says about it. -/
structure TraceStep.Records (step : TraceStep) (t : Table) (number : Nat) (c : Config) : Prop where
  number_eq : step.number = number
  stack_eq : step.stack = c.stack
  input_eq : step.input = c.input
  state_eq : topState? c.stack = some step.state
  /-- The token is the next one of the input; empty if there is none. -/
  token_eq : step.token = c.input.headD []
  action_eq : step.action = c.input.head?.bind (t.action? step.state)

/-- An action that is shown is the one of the table. -/
theorem TraceStep.Records.action?_eq {step : TraceStep} {t : Table} {number : Nat} {c : Config}
    (h : step.Records t number c) {action : Action} (ha : step.action = some action) :
    t.action? step.state step.token = some action := by
  have hbind := h.action_eq.symm.trans ha
  obtain ⟨token, htoken, haction⟩ := Option.bind_eq_some_iff.mp hbind
  rw [h.token_eq, List.headD_eq_head?_getD, htoken]
  exact haction

/-- What a move does to the stack and the input. -/
inductive Config.Moves (g : Grammar) (t : Table) (c : Config) : Option Action → Config → Prop
  /-- The next token goes to the stack, with a state above it. -/
  | shift {token : Symbol} {rest : List Symbol} {target : Nat} {next : Config}
      (hinput : c.input = token :: rest) (hrest : next.input = rest)
      (hstack : next.stack = .state target :: .symbol token :: c.stack) :
      Moves g t c (some (.shift target)) next
  /-- The cells of a right-hand side are replaced by the left-hand side and a state above it. -/
  | reduce {rule uncovered target : Nat} {p : Production} {next : Config}
      (hp : g.rule? rule = some p) (hinput : next.input = c.input)
      (htop : topState? (c.stack.drop (2 * p.rhs.length)) = some uncovered)
      (hgoto : t.goto? uncovered p.lhs = some target)
      (hstack : next.stack =
        .state target :: .symbol p.lhs :: c.stack.drop (2 * p.rhs.length)) :
      Moves g t c (some (.reduce rule)) next

namespace Config

variable {g : Grammar} {t : Table} {c next : Config} {number : Nat} {step : TraceStep}

/-- A reduction moves, or it fails. -/
theorem reduce_inv {state rule : Nat} {token : Symbol} {move : Move}
    (h : c.reduce g t state token rule = .ok move) :
    (∃ failure, move = .fail failure) ∨
      ∃ p target next, move = .reduce p target next ∧ c.Moves g t (some (.reduce rule)) next := by
  unfold reduce at h
  split at h
  · exact Or.inl ⟨_, (Except.ok.inj h).symm⟩
  · rename_i p hp
    dsimp only at h
    split at h
    · exact Or.inl ⟨_, (Except.ok.inj h).symm⟩
    · split at h
      · exact Or.inl ⟨_, (Except.ok.inj h).symm⟩
      · rename_i uncovered htop
        split at h
        · exact Or.inl ⟨_, (Except.ok.inj h).symm⟩
        · rename_i target hgoto
          obtain ⟨⟨children, roots⟩, -, h⟩ := bind_eq_ok.mp h
          obtain ⟨⟨node, arena⟩, -, h⟩ := bind_eq_ok.mp h
          exact Or.inr ⟨p, target, _, (Except.ok.inj h).symm, .reduce hp rfl htop hgoto rfl⟩

/-- What an action calls for fails, accepts, or moves. -/
theorem move_inv {state : Nat} {token : Symbol} {rest : List Symbol} {action : Option Action}
    {move : Move} (hinput : c.input = token :: rest)
    (h : c.move g t state token rest action = .ok move) :
    (∃ failure, move = .fail failure) ∨ (∃ root, move = .accept root) ∨
      ∃ next, c.Moves g t action next ∧ ((∃ target, move = .shift token target next) ∨
        ∃ p target, move = .reduce p target next) := by
  rcases action with _ | (_ | rule | target | _)
  · exact Or.inl ⟨_, (Except.ok.inj h).symm⟩
  · have hmove : c.accept state token = move := Except.ok.inj h
    unfold accept at hmove
    split at hmove
    · exact Or.inr (Or.inl ⟨_, hmove.symm⟩)
    · exact Or.inl ⟨_, hmove.symm⟩
  · rcases reduce_inv h with hfail | ⟨p, target, next, rfl, hmoves⟩
    · exact Or.inl hfail
    · exact Or.inr (Or.inr ⟨next, hmoves, Or.inr ⟨p, target, rfl⟩⟩)
  · have hmove : c.shift token rest target = move := Except.ok.inj h
    exact Or.inr (Or.inr ⟨_, .shift hinput rfl rfl, Or.inl ⟨target, hmove.symm⟩⟩)
  · exact Or.inl ⟨_, (Except.ok.inj h).symm⟩

theorem records_of_cons {state : Nat} {token : Symbol} {rest : List Symbol}
    (htop : topState? c.stack = some state) (hinput : c.input = token :: rest) (message : Text)
    (isError : Bool) :
    TraceStep.Records ⟨number, c.stack, token :: rest, t.action? state token, state, token,
      message, isError⟩ t number c :=
  ⟨rfl, rfl, hinput.symm, htop, by rw [hinput]; rfl, by rw [hinput]; rfl⟩

/-- A look at a configuration that moves on. -/
theorem turn_moved (h : c.turn g t number = .ok (.moved step next)) :
    step.Records t number c ∧ step.isError = false ∧ c.Moves g t step.action next := by
  unfold turn at h
  split at h
  · cases h
  · cases h
  · rename_i htop hinput
    obtain ⟨move, hmove, h⟩ := bind_eq_ok.mp h
    rcases move_inv hinput hmove with
      ⟨failure, rfl⟩ | ⟨root, rfl⟩ | ⟨next', hmoves, ⟨target, rfl⟩ | ⟨p, target, rfl⟩⟩
    · cases h
    · cases h
    · cases h
      exact ⟨records_of_cons htop hinput _ _, rfl, hmoves⟩
    · cases h
      exact ⟨records_of_cons htop hinput _ _, rfl, hmoves⟩

/-- A look at a configuration that ends the run: the step is marked if the run fails. -/
theorem turn_ended {outcome : Except Failure NodeId}
    (h : c.turn g t number = .ok (.ended step outcome)) :
    step.Records t number c ∧ (step.isError = true ↔ ∃ failure, outcome = .error failure) := by
  unfold turn at h
  split at h
  · cases h
  · rename_i htop hinput
    cases h
    refine ⟨⟨rfl, rfl, hinput.symm, htop, by rw [hinput]; rfl, by rw [hinput]; rfl⟩, ?_⟩
    simp
  · rename_i htop hinput
    obtain ⟨move, hmove, h⟩ := bind_eq_ok.mp h
    rcases move_inv hinput hmove with
      ⟨failure, rfl⟩ | ⟨root, rfl⟩ | ⟨next', -, ⟨target, rfl⟩ | ⟨p, target, rfl⟩⟩
    · cases h
      exact ⟨records_of_cons htop hinput _ _, by simp⟩
    · cases h
      exact ⟨records_of_cons htop hinput _ _, by simp⟩
    · cases h
    · cases h

end Config

/-! ### Runs -/

/-- A run on `tokens` has come to the configuration, and the trace holds the steps it made. -/
inductive Config.Reached (g : Grammar) (t : Table) (tokens : List Symbol) :
    List TraceStep → Config → Prop
  | initial : Reached g t tokens [] (.initial tokens)
  | moved {trace : List TraceStep} {c next : Config} {step : TraceStep}
      (h : Reached g t tokens trace c)
      (hturn : c.turn g t (trace.length + 1) = .ok (.moved step next)) :
      Reached g t tokens (trace ++ [step]) next

/-- Every step of the trace shows the configuration that was reached before it. -/
def Traced (g : Grammar) (t : Table) (tokens : List Symbol) (trace : List TraceStep) : Prop :=
  ∀ before step after, trace = before ++ step :: after →
    ∃ c : Config, c.Reached g t tokens before ∧ step.Records t (before.length + 1) c

namespace Traced

variable {g : Grammar} {t : Table} {tokens : List Symbol} {steps : List TraceStep}

theorem concat (h : Traced g t tokens steps) {c : Config} (hc : c.Reached g t tokens steps)
    {last : TraceStep} (hlast : last.Records t (steps.length + 1) c) :
    Traced g t tokens (steps ++ [last]) := by
  intro before step after hsteps
  rcases List.eq_nil_or_concat' after with rfl | ⟨middle, last', rfl⟩
  · obtain ⟨rfl, heq⟩ := List.append_inj' hsteps rfl
    cases heq
    exact ⟨c, hc, hlast⟩
  · rw [← List.cons_append, ← List.append_assoc] at hsteps
    exact h before step middle (List.append_inj' hsteps rfl).1

/-- The steps are numbered from 1. -/
theorem map_number (h : Traced g t tokens steps) :
    steps.map (·.number) = List.range' 1 steps.length := by
  refine List.ext_getElem (by simp) fun k hk _ => ?_
  rw [List.length_map] at hk
  obtain ⟨c, -, hrecords⟩ := h (steps.take k) steps[k] (steps.drop (k + 1)) (by simp)
  rw [List.getElem_map, hrecords.number_eq, List.length_take, List.getElem_range']
  omega

end Traced

/-- How a run ends. -/
inductive ParseResult.Stops (g : Grammar) (t : Table) (tokens : List Symbol) (limit : Nat)
    (r : ParseResult) : Prop
  /-- It has made as many moves as it was allowed. -/
  | limit {c : Config} (hc : c.Reached g t tokens r.trace) (hlength : r.trace.length = limit)
      (harena : r.arena = c.arena) (ho : r.outcome = .error (.stepLimit limit))
  /-- It looks at a configuration that decides it. -/
  | ended {before : List TraceStep} {c : Config} {step : TraceStep}
      (hc : c.Reached g t tokens before) (hlength : before.length < limit)
      (hturn : c.turn g t (before.length + 1) = .ok (.ended step r.outcome))
      (htrace : r.trace = before ++ [step]) (harena : r.arena = c.arena)

namespace Config.Reached

variable {g : Grammar} {t : Table} {tokens : List Symbol} {trace : List TraceStep} {c : Config}

/-- The snapshot of a configuration that was reached. -/
theorem exists_tracks (h : c.Reached g t tokens trace) :
    ∃ s, Snapshot.Steps g t trace.length (.initial tokens) s ∧ c.Tracks s := by
  induction h with
  | initial => exact ⟨_, .refl _, .initial tokens⟩
  | @moved trace c next step _ hturn ih =>
      obtain ⟨s, hsteps, htracks⟩ := ih
      have hshows := htracks.turn (g := g) (t := t) (trace.length + 1)
      rw [hturn] at hshows
      generalize hs : s.step g t = outcome at hshows
      cases hshows with
      | moved hnext =>
          rw [List.length_append]
          exact ⟨_, hsteps.trans (.single hs), hnext⟩

/-- No step before the last is marked. -/
theorem isError_eq_false (h : c.Reached g t tokens trace) :
    ∀ step ∈ trace, step.isError = false := by
  induction h with
  | initial => simp
  | moved _ hturn ih =>
      intro step hstep
      rcases List.mem_append.mp hstep with hold | hnew
      · exact ih step hold
      · rw [List.mem_singleton.mp hnew]
        exact (turn_moved hturn).2.1

/-- The steps of the moves show the configurations. -/
theorem traced (h : c.Reached g t tokens trace) : Traced g t tokens trace := by
  induction h with
  | initial => exact fun before step after htrace => by simp at htrace
  | moved h hturn ih => exact ih.concat h (turn_moved hturn).1

end Config.Reached

namespace Engine

variable {g : Grammar} {t : Table} {tokens : List Symbol}

theorem run_stops {limit fuel : Nat} : ∀ {c : Config} (trace : Array TraceStep),
    c.Reached g t tokens trace.toList → trace.size + fuel = limit →
    ∃ r, run g t limit fuel (trace.size + 1) c trace = .ok r ∧ r.Stops g t tokens limit := by
  induction fuel with
  | zero =>
      intro c trace h hlimit
      exact ⟨_, rfl, .limit h (by simpa using hlimit) rfl rfl⟩
  | succ fuel ih =>
      intro c trace h hlimit
      -- a configuration that is reached can be looked at, since it tracks a snapshot
      obtain ⟨s, -, htracks⟩ := h.exists_tracks
      have hshows := htracks.turn (g := g) (t := t) (trace.size + 1)
      rw [run]
      generalize hturn : c.turn g t (trace.size + 1) = turn, s.step g t = outcome at hshows ⊢
      have hended : ∀ {step : TraceStep} {outcome : Except Failure NodeId},
          turn = .ok (.ended step outcome) →
          ParseResult.Stops g t tokens limit ⟨outcome, (trace.push step).toList, c.arena⟩ := by
        rintro step outcome rfl
        exact .ended h (by rw [Array.length_toList]; omega) hturn (by simp) rfl
      cases hshows with
      | @moved step next _ _ =>
          have hnext : next.Reached g t tokens (trace.push step).toList := by
            rw [Array.toList_push]
            exact .moved h (by rw [Array.length_toList]; exact hturn)
          have hsize : (trace.push step).size = trace.size + 1 := Array.size_push _
          rw [← hsize]
          exact ih _ hnext (by omega)
      | accepted => exact ⟨_, rfl, hended rfl⟩
      | failed => exact ⟨_, rfl, hended rfl⟩

/-- The engine always returns a result, at the end of a run. -/
theorem parse_stops (g : Grammar) (t : Table) (limit : Nat) (tokens : List Symbol) :
    ∃ r, parse g t limit tokens = .ok r ∧ r.Stops g t tokens limit :=
  run_stops #[] .initial (Nat.zero_add limit)

end Engine

/-! ### Failures -/

/-- The failures of a single look: neither the limit nor a stack without a state on top. -/
def Failure.OfTurn : Failure → Prop
  | .stepLimit _ | .emptyStack | .uncovered .. => False
  | _ => True

theorem Failure.OfTurn.kind_ne {failure : Failure} (h : failure.OfTurn) :
    failure.kind ≠ ("StepLimitExceeded" : Text) := by
  cases failure with
  | stepLimit | emptyStack | uncovered => exact h.elim
  | noAction | noGoto | underflow | endOfInput | incompleteTree | invalidProduction =>
      dsimp only [kind]
      decide

/-- A snapshot has its state on top and its trees, whatever the table calls for. -/
theorem Snapshot.ofTurn_of_step {g : Grammar} {t : Table} {s : Snapshot} {failure : Failure}
    (h : s.step g t = .fails failure) : failure.OfTurn := by
  unfold step at h
  split at h
  · cases h
    trivial
  · unfold move at h
    split at h
    · cases h
      trivial
    · cases h
      trivial
    · unfold accept at h
      split at h
      · cases h
      · cases h
        trivial
    · cases h
    · unfold reduce at h
      split at h
      · cases h
        trivial
      · dsimp only at h
        split at h
        · cases h
          trivial
        · split at h
          · cases h
            trivial
          · cases h

namespace Config.Reached

variable {g : Grammar} {t : Table} {tokens : List Symbol} {trace : List TraceStep} {c : Config}

theorem ofTurn (h : c.Reached g t tokens trace) {number : Nat} {step : TraceStep}
    {failure : Failure} (hturn : c.turn g t number = .ok (.ended step (.error failure))) :
    failure.OfTurn := by
  obtain ⟨s, -, htracks⟩ := h.exists_tracks
  have hshows := htracks.turn (g := g) (t := t) number
  rw [hturn] at hshows
  generalize hs : s.step g t = outcome at hshows
  cases hshows with
  | failed => exact Snapshot.ofTurn_of_step hs

/-- States and symbols alternate, and every symbol has its root. -/
theorem balanced (h : c.Reached g t tokens trace) :
    Alternates c.stack ∧ c.roots.length = (Cell.symbols c.stack).length := by
  obtain ⟨s, -, htracks⟩ := h.exists_tracks
  rw [htracks.stack_eq, Frame.symbols_cells, Frame.length_symbols, htracks.length_roots]
  exact ⟨Frame.alternates_cells s.frames, rfl⟩

end Config.Reached

theorem ParseResult.failure?_eq_some {r : ParseResult} {failure : Failure} :
    r.failure? = some failure ↔ r.outcome = .error failure := by
  cases ho : r.outcome <;> simp [failure?, ho]

namespace ParseResult.Stops

variable {g : Grammar} {t : Table} {tokens : List Symbol} {limit : Nat} {r : ParseResult}

theorem traced (h : r.Stops g t tokens limit) : Traced g t tokens r.trace := by
  cases h with
  | limit hc => exact hc.traced
  | ended hc _ hturn htrace =>
      rw [htrace]
      exact hc.traced.concat hc (Config.turn_ended hturn).1

theorem length_trace_le (h : r.Stops g t tokens limit) : r.trace.length ≤ limit := by
  cases h with
  | limit _ hlength => exact Nat.le_of_eq hlength
  | ended _ hlength _ htrace =>
      rw [htrace, List.length_append]
      exact hlength

/-- A run fails at its limit, or with a failure of the last look. -/
theorem failure_cases (h : r.Stops g t tokens limit) {failure : Failure}
    (hf : r.outcome = .error failure) : failure = .stepLimit limit ∨ failure.OfTurn := by
  cases h with
  | limit _ _ _ ho => exact Or.inl (Except.error.inj (hf.symm.trans ho))
  | ended hc _ hturn => exact Or.inr (hc.ofTurn (hf ▸ hturn))

/-- Only the last step can be marked, and it is if the run fails before its limit. -/
theorem isError_iff (h : r.Stops g t tokens limit) {before : List TraceStep} {step : TraceStep}
    (htrace : r.trace = before ++ [step]) :
    (∀ earlier ∈ before, earlier.isError = false) ∧ (step.isError = true ↔
      ∃ failure, r.outcome = .error failure ∧ failure.kind ≠ ("StepLimitExceeded" : Text)) := by
  cases h with
  | limit hc _ _ ho =>
      have hfalse := hc.isError_eq_false
      rw [htrace] at hfalse
      refine ⟨fun earlier hearlier => hfalse earlier (List.mem_append_left _ hearlier), ?_⟩
      simp [hfalse step (by simp), ho, Failure.kind]
  | ended hc _ hturn htrace' =>
      obtain ⟨rfl, hstep⟩ := List.append_inj' (htrace'.symm.trans htrace) rfl
      cases hstep
      refine ⟨hc.isError_eq_false, (Config.turn_ended hturn).2.trans ?_⟩
      exact ⟨fun ⟨failure, ho⟩ => ⟨failure, ho, (hc.ofTurn (ho ▸ hturn)).kind_ne⟩,
        fun ⟨failure, ho, _⟩ => ⟨failure, ho⟩⟩

end ParseResult.Stops

/-- The engine is safe on every table. It returns a result and never finds its stack without a state
on top. In every configuration of a run states and symbols alternate on the stack and every symbol
has its root; every step of the trace shows such a configuration. There are no more steps than the
limit, numbered from 1, and only the last can be marked: it is if the run failed before its limit.
The result has a root exactly if it accepts, and a failure if it does not. -/
theorem Engine.parse_safe (g : Grammar) (t : Table) (limit : Nat) (tokens : List Symbol) :
    ∃ r, parse g t limit tokens = .ok r ∧
      (∀ failure, r.failure? = some failure →
        failure ≠ .emptyStack ∧ ∀ token cells, failure ≠ .uncovered token cells) ∧
      (∀ (trace : List TraceStep) (c : Config), c.Reached g t tokens trace →
        Alternates c.stack ∧ c.roots.length = (Cell.symbols c.stack).length) ∧
      (∀ before step after, r.trace = before ++ step :: after →
        ∃ c : Config, c.Reached g t tokens before ∧ step.Records t (before.length + 1) c) ∧
      r.trace.length ≤ limit ∧ r.trace.map (·.number) = List.range' 1 r.trace.length ∧
      (r.accepted = true ↔ r.failure? = none) ∧ (r.root?.isSome = true ↔ r.accepted = true) ∧
      ∀ before step, r.trace = before ++ [step] →
        (∀ earlier ∈ before, earlier.isError = false) ∧
        (step.isError = true ↔
          ∃ failure, r.failure? = some failure ∧ failure.kind ≠ "StepLimitExceeded") := by
  obtain ⟨r, hr, hstops⟩ := parse_stops g t limit tokens
  refine ⟨r, hr, fun failure hf => ?_, fun trace c hc => hc.balanced, hstops.traced,
    hstops.length_trace_le, hstops.traced.map_number, ?_, ?_, fun before step htrace => ?_⟩
  · rcases hstops.failure_cases (ParseResult.failure?_eq_some.mp hf) with rfl | hturn
    · exact ⟨by simp, by simp⟩
    · constructor
      · intro heq
        rw [heq] at hturn
        exact hturn
      · intro token cells heq
        rw [heq] at hturn
        exact hturn
  · cases ho : r.outcome <;>
      simp [ParseResult.accepted, ParseResult.failure?, ho, Except.isOk, Except.toBool]
  · cases ho : r.outcome <;>
      simp [ParseResult.accepted, ParseResult.root?, ho, Except.isOk, Except.toBool,
        Except.toOption]
  · obtain ⟨hearlier, hlast⟩ := hstops.isError_iff htrace
    simp only [ParseResult.failure?_eq_some]
    exact ⟨hearlier, hlast⟩

end ShiftReduce
