import ShiftReduce.Proofs.Engine.Succession

/-!
# ShiftReduce.Proofs.Engine.Limit

**The step limit only truncates.** A run is determined by its number of moves
(`Config.Reached.unique`), so of two runs on the same tokens the shorter one is where the longer one
began (`Config.Reached.isPrefix`), and a configuration that ends one run is not passed by another
(`Config.Reached.exists_moved`).

A run that its limit stops has recorded moves only, and no later step changes them. A run that ends
before is the same under every larger limit, down to the failure that it patches into its last step.
-/

namespace ShiftReduce

/-! ### Two runs on the same tokens -/

namespace Config.Reached

variable {g : Grammar} {t : Table} {tokens : List Symbol} {before trace : List TraceStep}
  {c c' : Config}

/-- A run is determined by its number of moves. -/
theorem unique (h : c.Reached g t tokens before) (h' : c'.Reached g t tokens trace)
    (hlength : before.length = trace.length) : before = trace ∧ c = c' := by
  induction h generalizing trace c' with
  | initial =>
      obtain rfl : trace = [] := List.length_eq_zero_iff.mp hlength.symm
      exact ⟨rfl, h'.eq_initial.symm⟩
  | moved _ hturn ih =>
      cases h' with
      | initial => simp at hlength
      | moved h' hturn' =>
          obtain ⟨rfl, rfl⟩ := ih h' (by simpa using hlength)
          cases hturn.symm.trans hturn'
          exact ⟨rfl, rfl⟩

/-- The shorter of two runs is where the longer one began. -/
theorem isPrefix (h : c.Reached g t tokens before) (h' : c'.Reached g t tokens trace)
    (hle : before.length ≤ trace.length) : before <+: trace := by
  induction h' with
  | initial =>
      obtain rfl : before = [] := List.length_eq_zero_iff.mp (Nat.le_zero.mp hle)
      exact List.prefix_refl []
  | @moved trace c' next step h' hturn ih =>
      rcases Nat.lt_or_eq_of_le hle with hlt | heq
      · rw [List.length_append] at hlt
        exact (ih (Nat.le_of_lt_succ hlt)).trans (List.prefix_append trace [step])
      · obtain ⟨rfl, -⟩ := h.unique (.moved h' hturn) heq
        exact List.prefix_refl _

/-- A run that goes beyond a configuration moves on from it. -/
theorem exists_moved (h : c.Reached g t tokens before) (h' : c'.Reached g t tokens trace)
    (hlt : before.length < trace.length) :
    ∃ step next, c.turn g t (before.length + 1) = .ok (.moved step next) := by
  induction h' with
  | initial => cases hlt
  | @moved trace c' next step h' hturn ih =>
      rw [List.length_append] at hlt
      rcases Nat.lt_or_eq_of_le (Nat.le_of_lt_succ hlt) with hlt | heq
      · exact ih hlt
      · obtain ⟨rfl, rfl⟩ := h.unique h' heq
        exact ⟨step, next, hturn⟩

/-- No run goes beyond a configuration that ends one. -/
theorem length_le_of_ended (h : c.Reached g t tokens before) {step : TraceStep}
    {outcome : Except Failure NodeId}
    (hturn : c.turn g t (before.length + 1) = .ok (.ended step outcome))
    (h' : c'.Reached g t tokens trace) : trace.length ≤ before.length := by
  apply Nat.le_of_not_lt
  intro hlt
  obtain ⟨step', next, hmoved⟩ := h.exists_moved h' hlt
  cases hturn.symm.trans hmoved

end Config.Reached

/-! ### Two limits -/

namespace ParseResult

/-- The run made as many moves as it was allowed. -/
def Exhausted (r : ParseResult) : Prop :=
  ∃ failure, r.failure? = some failure ∧ failure.kind = "StepLimitExceeded"

namespace Stops

variable {g : Grammar} {t : Table} {tokens : List Symbol} {n m : Nat} {r r' : ParseResult}

theorem exhausted_of_stepLimit (ho : r.outcome = .error (.stepLimit n)) : r.Exhausted :=
  ⟨.stepLimit n, failure?_eq_some.mpr ho, rfl⟩

/-- The trace of an exhausted run records its moves only, as many as it was allowed. -/
theorem reached_of_exhausted (h : r.Stops g t tokens n) (hr : r.Exhausted) :
    r.trace.length = n ∧ ∃ c : Config, c.Reached g t tokens r.trace := by
  obtain ⟨failure, hfailure, hkind⟩ := hr
  cases h with
  | limit hc hlength => exact ⟨hlength, _, hc⟩
  | ended hc _ hturn =>
      rw [failure?_eq_some.mp hfailure] at hturn
      exact absurd hkind (hc.ofTurn hturn).kind_ne

/-- A run that is not exhausted is the same under every larger limit. -/
theorem eq_of_not_exhausted (h : r.Stops g t tokens n) (h' : r'.Stops g t tokens m) (hle : n ≤ m)
    (hr : ¬ r.Exhausted) : r' = r := by
  cases h with
  | limit _ _ _ ho => exact absurd (exhausted_of_stepLimit ho) hr
  | @ended before c step hc hlength hturn htrace harena =>
      cases h' with
      | limit hc' hlength' =>
          have hmoves := hc.length_le_of_ended hturn hc'
          omega
      | @ended before' c' step' hc' hlength' hturn' htrace' harena' =>
          -- both runs end where they stand, so neither goes beyond the other
          have hmoves : before.length = before'.length :=
            Nat.le_antisymm (hc'.length_le_of_ended hturn' hc) (hc.length_le_of_ended hturn hc')
          obtain ⟨rfl, rfl⟩ := hc.unique hc' hmoves
          obtain ⟨outcome, trace, arena⟩ := r
          obtain ⟨outcome', trace', arena'⟩ := r'
          cases hturn.symm.trans hturn'
          rw [ParseResult.mk.injEq]
          exact ⟨rfl, htrace'.trans htrace.symm, harena'.trans harena.symm⟩

/-- The steps of a run that is stopped by its limit are those that every longer run begins with. -/
theorem trace_eq_take (h : r.Stops g t tokens n) (h' : r'.Stops g t tokens m) (hle : n ≤ m) :
    r.trace = r'.trace.take n := by
  by_cases hr : r.Exhausted
  · obtain ⟨hlength, c, hc⟩ := h.reached_of_exhausted hr
    have hprefix : r.trace <+: r'.trace := by
      cases h' with
      | limit hc' hlength' => exact hc.isPrefix hc' (by omega)
      | ended hc' _ hturn' htrace' =>
          have hmoves := hc'.length_le_of_ended hturn' hc
          rw [htrace']
          exact (hc.isPrefix hc' hmoves).trans (List.prefix_append _ _)
    rw [List.prefix_iff_eq_take.mp hprefix, hlength]
  · rw [h.eq_of_not_exhausted h' hle hr]
    exact (List.take_of_length_le h.length_trace_le).symm

end Stops

end ParseResult

/-- The step limit only truncates, whatever the table. A run has the steps that every run with a
larger limit begins with, in all their fields. If the limit stops it, it has a step for every move
that it was allowed; otherwise the result is the same under the larger limit. -/
theorem Engine.parse_truncates (g : Grammar) (t : Table) (tokens : List Symbol) {n m : Nat}
    (h : n ≤ m) :
    ∃ r r', parse g t n tokens = .ok r ∧ parse g t m tokens = .ok r' ∧
      r.trace = r'.trace.take n ∧ (¬ r.Exhausted → r' = r) ∧
      (r.Exhausted → r.trace.length = n) := by
  obtain ⟨r, hr, hstops⟩ := parse_stops g t n tokens
  obtain ⟨r', hr', hstops'⟩ := parse_stops g t m tokens
  exact ⟨r, r', hr, hr', hstops.trace_eq_take hstops' h, hstops.eq_of_not_exhausted hstops' h,
    fun hexhausted => (hstops.reached_of_exhausted hexhausted).1⟩

/-! ### A row of one token -/

namespace Unary

def grammar : Grammar :=
  ⟨[⟨"S", ["x"]⟩], by simp, by decide⟩

/-- One state, which reads `x` and stays where it is. -/
def table : Table :=
  ⟨.lr0, #[⟨(∅ : SymbolMap Action).insert "x" (.shift 0), ∅⟩], #[]⟩

def tokens : List Symbol :=
  ["x", "x", "x"]

end Unary

/-- All tokens are read before the fourth step fails, and its failure is not seen in two steps. -/
theorem Engine.parse_truncates_unary :
    2 ≤ 9 ∧ ∃ r r', parse Unary.grammar Unary.table 2 Unary.tokens = .ok r ∧
      parse Unary.grammar Unary.table 9 Unary.tokens = .ok r' ∧
      r.trace = r'.trace.take 2 ∧ r.Exhausted ∧ r.trace.length = 2 ∧ r'.trace.length = 4 := by
  obtain ⟨r, r', hr, hr', htrace, -, hlength⟩ :=
    parse_truncates Unary.grammar Unary.table Unary.tokens (n := 2) (m := 9) (by decide)
  have hfailure : (parse Unary.grammar Unary.table 2 Unary.tokens).map ParseResult.failure? =
      .ok (some (.stepLimit 2)) := by
    decide +kernel
  have hfour : (parse Unary.grammar Unary.table 9 Unary.tokens).map (·.trace.length) = .ok 4 := by
    decide +kernel
  rw [hr] at hfailure
  rw [hr'] at hfour
  have hexhausted : r.Exhausted := ⟨_, Except.ok.inj hfailure, rfl⟩
  exact ⟨by decide, r, r', hr, hr', htrace, hexhausted, hlength hexhausted, Except.ok.inj hfour⟩

end ShiftReduce
