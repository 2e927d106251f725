import ShiftReduce.Proofs.Engine.Limit

/-!
# ShiftReduce.Proofs.Engine.Counter

**Counting the steps in 64 bits.** Under a limit below the largest count the counter never comes
round to 0, and `Engine.execute` is the run under that limit (`Engine.execute_eq_parse`).

No count is beyond the largest one. With it as the limit, a run that ends by itself ends where it
does under every limit that is large enough, and a run that every limit stops never ends
(`Engine.execute_eq_none_iff`). A result comes from a fixpoint, so it was reached in a number of
moves, and the induction on that fixpoint finds them (`Engine.exists_steps_of_loop`).
-/

namespace ShiftReduce

namespace Engine

/-- The largest count of 64 bits. As a step limit it is none. -/
def maxCount : UInt64 := 18446744073709551615

/-- No limit is large enough for the run: it is stopped by all of them. -/
def Endless (g : Grammar) (t : Table) (tokens : List Symbol) : Prop :=
  ∀ limit r, parse g t limit tokens = .ok r → r.Exhausted

end Engine

/-- A run that shows a final snapshot was not stopped by its limit. -/
theorem ParseResult.Shows.not_exhausted {g : Grammar} {t : Table} {s : Snapshot} {r : ParseResult}
    (h : r.Shows (s.step g t)) : ¬ r.Exhausted := by
  intro ⟨failure, hfailure, hkind⟩
  have ho := failure?_eq_some.mp hfailure
  generalize hs : s.step g t = outcome at h
  cases h with
  | accepted ho' => cases ho.symm.trans ho'
  | failed ho' =>
      cases ho.symm.trans ho'
      exact (Snapshot.ofTurn_of_step hs).kind_ne hkind

namespace Engine

variable {g : Grammar} {t : Table} {tokens : List Symbol}

/-- A run that is not endless comes to a final snapshot. -/
theorem not_endless_iff : ¬ Endless g t tokens ↔
    ∃ n u, Snapshot.Steps g t n (.initial tokens) u ∧ (u.step g t).Final := by
  constructor
  · intro h
    simp only [Endless, not_forall] at h
    obtain ⟨limit, r, hr, hexhausted⟩ := h
    obtain ⟨r', hr', hends⟩ := parse_spec g t limit tokens
    cases hr.symm.trans hr'
    cases hends with
    | limit _ ho => exact absurd (ParseResult.Stops.exhausted_of_stepLimit ho) hexhausted
    | final _ hs hshows => exact ⟨_, _, hs, hshows.final⟩
  · intro ⟨n, u, hs, hfinal⟩ hendless
    obtain ⟨r, hr, hends⟩ := parse_spec g t (n + 1) tokens
    cases hends with
    | limit hs' => exact absurd (hs.le_of_final hfinal hs') (Nat.not_succ_le_self n)
    | final _ _ hshows => exact hshows.not_exhausted (hendless _ r hr)

/-- If every snapshot with a property moves to one with the property, a run that starts with it is
endless. -/
theorem endless_of_moves {P : Snapshot → Prop} (hinitial : P (.initial tokens))
    (hmoves : ∀ s, P s → ∃ next, s.step g t = .moves next ∧ P next) : Endless g t tokens := by
  by_contra hended
  obtain ⟨n, u, hs, hfinal⟩ := not_endless_iff.mp hended
  have hu : P u := by
    generalize Snapshot.initial tokens = s at hs hinitial
    induction hs with
    | refl s => exact hinitial
    | head hstep _ ih =>
        obtain ⟨next, hnext, hP⟩ := hmoves _ hinitial
        cases hstep.symm.trans hnext
        exact ih hfinal hP
  obtain ⟨next, hnext, -⟩ := hmoves u hu
  exact hfinal next hnext

/-! ### Below the largest count -/

theorem toNat_maxCount : maxCount.toNat = UInt64.size - 1 :=
  rfl

theorem toNat_lt_maxCount {limit : UInt64} (h : limit ≠ maxCount) :
    limit.toNat + 1 < UInt64.size := by
  have hne : limit.toNat ≠ maxCount.toNat := fun heq => h (UInt64.toNat_inj.mp heq)
  have hlt := limit.toNat_lt_size
  rw [toNat_maxCount] at hne
  omega

theorem loop_eq_run {limit : UInt64} (hlimit : limit ≠ maxCount) {fuel : Nat} :
    ∀ {number : UInt64} (c : Config) (trace : Array TraceStep),
      number.toNat + fuel = limit.toNat + 1 →
      loop g t limit trace number c = some (run g t limit.toNat fuel number.toNat c trace) := by
  have hsize := toNat_lt_maxCount hlimit
  induction fuel with
  | zero =>
      intro number c trace hnumber
      have hlt : limit < number := UInt64.lt_iff_toNat_lt.mpr (by omega)
      rw [loop, if_pos hlt]
      rfl
  | succ fuel ih =>
      intro number c trace hnumber
      have hle : ¬ limit < number := fun hlt => by
        have := UInt64.lt_iff_toNat_lt.mp hlt
        omega
      -- the next count is not round to 0, since the limit is below the largest one
      have hnext : (number + 1).toNat = number.toNat + 1 := by
        rw [UInt64.toNat_add]
        exact Nat.mod_eq_of_lt (show number.toNat + 1 < UInt64.size by omega)
      rw [loop, if_neg hle, run]
      cases c.turn g t number.toNat with
      | error e => rfl
      | ok turn =>
          cases turn with
          | moved step next =>
              show loop g t limit (trace.push step) (number + 1) next = _
              rw [ih next _ (by omega), hnext]
          | ended step outcome => rfl
          | stuck => rfl

theorem execute_eq_parse {limit : UInt64} (h : limit ≠ maxCount) :
    execute g t limit tokens = some (parse g t limit.toNat tokens) :=
  loop_eq_run h _ _ (Nat.add_comm 1 limit.toNat)

/-! ### The largest count as the limit -/

theorem not_maxCount_lt (number : UInt64) : ¬ maxCount < number := by
  intro hlt
  have hnumber := number.toNat_lt_size
  have := UInt64.lt_iff_toNat_lt.mp hlt
  rw [toNat_maxCount] at this
  omega

/-- The loop goes on to a final snapshot, and its result is the one of that snapshot. -/
theorem loop_shows {n : Nat} {s u : Snapshot} (hs : s.Steps g t n u)
    (hfinal : (u.step g t).Final) : ∀ {number : UInt64} {c : Config} (trace : Array TraceStep),
    c.Tracks s → ∃ r, loop g t maxCount trace number c = some (.ok r) ∧
      r.Shows (u.step g t) ∧ r.trace.length = trace.size + (n + 1) := by
  induction hs with
  | refl s =>
      intro number c trace htracks
      have hturn := htracks.turn (g := g) (t := t) number.toNat
      rw [loop, if_neg (not_maxCount_lt number)]
      generalize hc : c.turn g t number.toNat = turn, ho : s.step g t = outcome at hturn ⊢
      cases hturn with
      | moved => exact absurd ho (hfinal _)
      | accepted hshape =>
          exact ⟨_, rfl, .accepted rfl htracks.wellFormed hshape, by simp⟩
      | failed => exact ⟨_, rfl, .failed rfl, by simp⟩
  | @head n s s' u hstep _ ih =>
      intro number c trace htracks
      have hturn := htracks.turn (g := g) (t := t) number.toNat
      rw [loop, if_neg (not_maxCount_lt number)]
      rw [hstep] at hturn
      generalize c.turn g t number.toNat = turn at hturn ⊢
      cases hturn with
      | moved hnext =>
          obtain ⟨r, hr, hshows, htrace⟩ := ih hfinal (trace.push _) hnext
          refine ⟨r, hr, hshows, ?_⟩
          rw [htrace, Array.size_push]
          omega

/-- The loop has a result only if the moves come to a final snapshot. -/
theorem exists_steps_of_loop {number : UInt64} {c : Config} {trace : Array TraceStep}
    {answer : Except Missing ParseResult} (h : loop g t maxCount trace number c = some answer)
    {s : Snapshot} (htracks : c.Tracks s) :
    ∃ n u, s.Steps g t n u ∧ (u.step g t).Final := by
  refine loop.partial_correctness g t maxCount
    (fun _ _ c _ => ∀ s : Snapshot, c.Tracks s → ∃ n u, s.Steps g t n u ∧ (u.step g t).Final)
    ?_ trace number c answer h s htracks
  intro loop ih trace number c answer h s htracks
  rw [if_neg (not_maxCount_lt number)] at h
  have hturn := htracks.turn (g := g) (t := t) number.toNat
  generalize c.turn g t number.toNat = turn, ho : s.step g t = outcome at h hturn
  cases hturn with
  | moved hnext =>
      obtain ⟨n, u, hs, hfinal⟩ := ih _ _ _ _ h _ hnext
      exact ⟨n + 1, u, .head ho hs, hfinal⟩
  | accepted => exact ⟨0, s, .refl s, by simp [ho, Outcome.Final]⟩
  | failed => exact ⟨0, s, .refl s, by simp [ho, Outcome.Final]⟩

/-! ### Every limit -/

/-- There is no result if and only if the limit is none and the run is endless. -/
theorem execute_eq_none_iff (g : Grammar) (t : Table) (limit : UInt64) (tokens : List Symbol) :
    execute g t limit tokens = none ↔ limit = maxCount ∧ Endless g t tokens := by
  by_cases hlimit : limit = maxCount
  · subst hlimit
    have htracks := Config.Tracks.initial tokens
    rw [and_iff_right rfl, ← not_iff_not, not_endless_iff, ← ne_eq, Option.ne_none_iff_exists']
    constructor
    · intro ⟨answer, hanswer⟩
      exact exists_steps_of_loop hanswer htracks
    · intro ⟨n, u, hs, hfinal⟩
      obtain ⟨r, hr, -⟩ := loop_shows hs hfinal #[] htracks
      exact ⟨_, hr⟩
  · rw [execute_eq_parse hlimit]
    simp [hlimit]

/-- A result is the one of a run, under the limit or to its own end. -/
theorem execute_ends {limit : UInt64} {answer : Except Missing ParseResult}
    (h : execute g t limit tokens = some answer) :
    ∃ r bound, answer = .ok r ∧ r.Ends g t bound bound 0 (.initial tokens) := by
  by_cases hlimit : limit = maxCount
  · subst hlimit
    have htracks := Config.Tracks.initial tokens
    obtain ⟨n, u, hs, hfinal⟩ := exists_steps_of_loop h htracks
    obtain ⟨r, hr, hshows, htrace⟩ := loop_shows hs hfinal #[] htracks
    exact ⟨r, n + 1, Option.some.inj (h.symm.trans hr),
      .final (Nat.lt_succ_self n) hs hshows htrace⟩
  · rw [execute_eq_parse hlimit] at h
    obtain ⟨r, hr, hends⟩ := parse_spec g t limit.toNat tokens
    exact ⟨r, limit.toNat, (Option.some.inj h).symm.trans hr, hends⟩

end Engine

end ShiftReduce
