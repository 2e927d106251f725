import ShiftReduce.Proofs.Engine.Trace

/-!
# ShiftReduce.Proofs.Engine.Succession

**A trace can be checked step by step.** Two neighbouring steps show two neighbouring configurations
of the run, so the second is what the action of the first makes of it (`TraceStep.Precedes`). This
holds for every table, generated or not, and for runs of any length and end: what a failure patches
into the trace is the message and the mark of the last step, and neither is looked at here.

A step with a successor is the record of a move. `Config.Reached.concat_inv` gives the configuration
that was looked at, and `Config.turn_moved` the move.
-/

namespace ShiftReduce

/-- The next step shows what the action of the step makes of its stack and input. -/
inductive TraceStep.Precedes (g : Grammar) (t : Table) (step next : TraceStep) : Prop
  /-- The token goes to the stack, with the state of the shift above it. -/
  | shift {target : Nat} (ha : step.action = some (.shift target))
      (hstack : next.stack = .state target :: .symbol step.token :: step.stack)
      (hinput : next.input = step.input.tail)
  /-- The cells of a right-hand side are there. The left-hand side takes their place, with the state
  above it that the state below them goes to. -/
  | reduce {rule uncovered target : Nat} {p : Production}
      (ha : step.action = some (.reduce rule)) (hp : g.rule? rule = some p)
      (hcells : 2 * p.rhs.length < step.stack.length)
      (htop : topState? (step.stack.drop (2 * p.rhs.length)) = some uncovered)
      (hgoto : t.goto? uncovered p.lhs = some target)
      (hstack : next.stack =
        .state target :: .symbol p.lhs :: step.stack.drop (2 * p.rhs.length))
      (hinput : next.input = step.input)

/-- A state on top of what is left after dropping cells means that there were more cells. -/
theorem lt_length_of_topState?_drop {stack : List Cell} {n state : Nat}
    (h : topState? (stack.drop n) = some state) : n < stack.length := by
  apply Nat.lt_of_not_le
  intro hle
  rw [List.drop_of_length_le hle] at h
  cases h

section Records

variable {g : Grammar} {t : Table} {c next : Config} {step after : TraceStep} {m n : Nat}

/-- The token of a step is the head of its input, if there is one. -/
theorem TraceStep.Records.head?_input (h : step.Records t n c) (hne : c.input ≠ []) :
    step.input.head? = some step.token := by
  obtain ⟨token, rest, hinput⟩ := List.exists_cons_of_ne_nil hne
  rw [h.input_eq, h.token_eq, hinput]
  rfl

/-- A step with a token shows the action of the table for it. -/
theorem TraceStep.Records.action_eq_action? (h : step.Records t n c) (hne : c.input ≠ []) :
    step.action = t.action? step.state step.token := by
  obtain ⟨token, rest, hinput⟩ := List.exists_cons_of_ne_nil hne
  rw [h.action_eq, h.token_eq, hinput]
  rfl

/-- The steps of two configurations with a move between them. -/
theorem TraceStep.Precedes.of_moves (hstep : step.Records t m c) (hafter : after.Records t n next)
    (hmoves : c.Moves g t step.action next) : step.Precedes g t after := by
  generalize ha : step.action = action at hmoves
  cases hmoves with
  | @shift token rest target _ hinput hrest hstack =>
      have htoken : step.token = token := by
        rw [hstep.token_eq, hinput]
        rfl
      refine .shift ha ?_ ?_
      · rw [hafter.stack_eq, hstack, hstep.stack_eq, htoken]
      · rw [hafter.input_eq, hrest, hstep.input_eq, hinput]
        rfl
  | reduce hp hinput htop hgoto hstack =>
      rw [← hstep.stack_eq] at htop hstack
      refine .reduce ha hp (lt_length_of_topState?_drop htop) htop hgoto ?_ ?_
      · rw [hafter.stack_eq, hstack]
      · rw [hafter.input_eq, hinput, hstep.input_eq]

/-- Only a configuration with a token left moves on. -/
theorem Config.input_ne_nil_of_moved (h : c.turn g t n = .ok (.moved step next)) :
    c.input ≠ [] := by
  intro hnil
  unfold turn at h
  rw [hnil] at h
  split at h
  · cases h
  · cases h
  · rename_i hcons
    cases hcons

end Records

namespace Config.Reached

variable {g : Grammar} {t : Table} {tokens : List Symbol} {c : Config}

/-- A run without steps is where it started. -/
theorem eq_initial (h : c.Reached g t tokens []) : c = .initial tokens := by
  generalize htrace : ([] : List TraceStep) = trace at h
  cases h with
  | initial => rfl
  | moved => simp at htrace

/-- The last step of a run records the look at the configuration before it. -/
theorem concat_inv {before : List TraceStep} {step : TraceStep}
    (h : c.Reached g t tokens (before ++ [step])) :
    ∃ c₀ : Config, c₀.Reached g t tokens before ∧
      c₀.turn g t (before.length + 1) = .ok (.moved step c) := by
  generalize htrace : before ++ [step] = trace at h
  cases h with
  | initial => simp at htrace
  | moved h hturn =>
      obtain ⟨rfl, hstep⟩ := List.append_inj' htrace rfl
      cases hstep
      exact ⟨_, h, hturn⟩

end Config.Reached

namespace Traced

variable {g : Grammar} {t : Table} {tokens : List Symbol} {trace : List TraceStep}

theorem head_eq (h : Traced g t tokens trace) {first : TraceStep} {rest : List TraceStep}
    (htrace : trace = first :: rest) : first.stack = [.state 0] ∧ first.input = tokens := by
  obtain ⟨c, hc, hrecords⟩ := h [] first rest htrace
  obtain rfl := hc.eq_initial
  exact ⟨hrecords.stack_eq, hrecords.input_eq⟩

/-- A step with a successor shows the configuration that was looked at, and precedes it. -/
theorem precedes (h : Traced g t tokens trace) {before after : List TraceStep}
    {step next : TraceStep} (htrace : trace = before ++ step :: next :: after) :
    topState? step.stack = some step.state ∧ step.input.head? = some step.token ∧
      step.action = t.action? step.state step.token ∧ step.Precedes g t next := by
  have hsplit : trace = (before ++ [step]) ++ next :: after := by simp [htrace]
  obtain ⟨c', hc', hnext⟩ := h _ next after hsplit
  -- the successor was reached by the move that the step records
  obtain ⟨c, -, hturn⟩ := hc'.concat_inv
  obtain ⟨hstep, -, hmoves⟩ := Config.turn_moved hturn
  have hne := Config.input_ne_nil_of_moved hturn
  refine ⟨?_, hstep.head?_input hne, hstep.action_eq_action? hne, .of_moves hstep hnext hmoves⟩
  rw [hstep.stack_eq]
  exact hstep.state_eq

end Traced

/-- Every trace is a faithful run. The first step has state 0 alone on its stack and all tokens as
its input. Every step with a successor shows the state on top of its stack, the head of its input
and the action of the table for these two, and the successor is what that action makes of it. -/
theorem Engine.trace_faithful (g : Grammar) (t : Table) (limit : Nat) (tokens : List Symbol) :
    ∃ r, parse g t limit tokens = .ok r ∧
      (∀ first rest, r.trace = first :: rest →
        first.stack = [.state 0] ∧ first.input = tokens) ∧
      ∀ before step next after, r.trace = before ++ step :: next :: after →
        topState? step.stack = some step.state ∧ step.input.head? = some step.token ∧
        step.action = t.action? step.state step.token ∧ step.Precedes g t next := by
  obtain ⟨r, hr, hstops⟩ := parse_stops g t limit tokens
  exact ⟨r, hr, fun first rest htrace => hstops.traced.head_eq htrace,
    fun before step next after htrace => hstops.traced.precedes htrace⟩

end ShiftReduce
