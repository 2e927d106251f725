import ShiftReduce.Proofs.Completeness
import ShiftReduce.Proofs.Table.Content

/-!
# ShiftReduce.Proofs.Table.Modes

**LR(0) and SLR(1) tables of one grammar.** Both modes fill a table from the same automaton. They
differ in the lookaheads of the reductions, and FOLLOW only has columns of the table
(`Grammar.mem_reduceOn_lr0`). So every candidate of an SLR(1) cell is one of the LR(0) cell, and
there are no more conflicts (`Generation.conflictCount_le`).

If the LR(0) table has no conflicts, the SLR(1) table is a part of it: `Table.Restricts`. A run that
is accepted never meets a cell that is missing, so the larger table runs in the same way
(`Engine.run_of_restricts`). That the smaller table refuses nothing more is the completeness of
SLR(1) tables: the run on a sentence has the length of its tree in either table.
-/

namespace ShiftReduce

/-! ### Tables that are part of another -/

/-- The first table has some of the actions of the second, and the same states to go to. -/
structure Table.Restricts (t t' : Table) : Prop where
  action : ∀ {n : Nat} {s : Symbol} {action : Action},
    t.action? n s = some action → t'.action? n s = some action
  goto : ∀ n s, t.goto? n s = t'.goto? n s

section Restricts

variable {g : Grammar} {t t' : Table}

theorem Config.reduce_of_restricts (h : t.Restricts t') (c : Config) (state : Nat) (token : Symbol)
    (rule : Nat) : c.reduce g t state token rule = c.reduce g t' state token rule := by
  simp only [Config.reduce, h.goto]

/-- The tables call for the same move, or the smaller one has no action. -/
theorem Config.turn_of_restricts (h : t.Restricts t') (c : Config) (number : Nat) :
    c.turn g t number = c.turn g t' number ∨
      ∃ step failure, c.turn g t number = .ok (.ended step (.error failure)) := by
  simp only [Config.turn]
  cases topState? c.stack with
  | none => exact Or.inl rfl
  | some state =>
      cases c.input with
      | nil => exact Or.inl rfl
      | cons token rest =>
          dsimp only
          cases haction : t.action? state token with
          | none => exact Or.inr ⟨_, _, rfl⟩
          | some action =>
              rw [h.action haction]
              cases action with
              | reduce rule =>
                  have hmove : c.move g t state token rest (some (.reduce rule)) =
                      c.move g t' state token rest (some (.reduce rule)) :=
                    c.reduce_of_restricts h state token rule
                  rw [hmove]
                  exact Or.inl rfl
              | _ => exact Or.inl rfl

/-- An accepting run is the same run in a larger table. -/
theorem Engine.run_of_restricts (h : t.Restricts t') {limit fuel : Nat} {r : ParseResult}
    (haccepted : r.accepted = true) :
    ∀ {number : Nat} {c : Config} {trace : Array TraceStep},
      run g t limit fuel number c trace = .ok r → run g t' limit fuel number c trace = .ok r := by
  obtain ⟨root, hroot⟩ := ParseResult.accepted_iff.mp haccepted
  induction fuel with
  | zero =>
      intro number c trace hr
      exact hr
  | succ fuel ih =>
      intro number c trace hr
      rw [run] at hr ⊢
      rcases c.turn_of_restricts (g := g) h number with hturn | ⟨step, failure, hturn⟩
      · rw [← hturn]
        cases hc : c.turn g t number with
        | error e => simp [hc] at hr
        | ok turn =>
            rw [hc] at hr
            cases turn with
            | moved step next => exact ih hr
            | ended step outcome => exact hr
            | stuck => exact hr
      · -- the smaller table had no action here, so the run was not accepted
        rw [hturn] at hr
        cases hr
        simp at hroot

end Restricts

/-! ### The two modes -/

namespace Grammar

/-- A production is reduced on no more lookaheads in SLR(1) mode. -/
theorem mem_reduceOn_lr0 {g : Grammar} {p : Production} {s : Symbol}
    (h : s ∈ g.reduceOn .slr1 p) : s ∈ g.reduceOn .lr0 p :=
  mem_actionColumns.mpr (g.followSets_within.members p.lhs s (Std.ExtTreeSet.mem_toList.mp h))

end Grammar

/-- Wider lookaheads keep the candidates of a cell. -/
theorem Table.Candidate.mono {g : Grammar} {a : Automaton}
    {reduceOn reduceOn' : Production → List Symbol} {n : Nat} {items : ItemSet}
    (hwider : ∀ p, ∀ s ∈ reduceOn p, s ∈ reduceOn' p) {s : Symbol} {action : Action}
    (h : Candidate g a reduceOn n items s action) : Candidate g a reduceOn' n items s action := by
  cases h with
  | accept hi => exact .accept hi
  | shift hi hs ht hm => exact .shift hi hs ht hm
  | reduce hr hp hi hs => exact .reduce hr hp hi (hwider _ _ hs)

namespace Generation

variable {g : Grammar} {lr0 slr1 : Generation} {log log' : LogOptions} {text text' : Text}

/-- Both modes have the automaton of the grammar. -/
theorem automaton_eq {mode mode' : Mode} {gen gen' : Generation}
    (h : Generation.ofGrammar g mode log = .ok (gen, text))
    (h' : Generation.ofGrammar g mode' log' = .ok (gen', text')) :
    gen'.automaton = gen.automaton :=
  Except.ok.inj ((ofGrammar_inv h').1.symm.trans (ofGrammar_inv h).1)

/-- No cell has more conflicts in SLR(1) mode. -/
theorem conflictCount_le (h₀ : Generation.ofGrammar g .lr0 log = .ok (lr0, text))
    (h₁ : Generation.ofGrammar g .slr1 log' = .ok (slr1, text')) (n : Nat) (s : Symbol) :
    slr1.table.conflictCount n s ≤ lr0.table.conflictCount n s := by
  refine conflictCount_le_of_candidate h₁ h₀ Function.injective_id fun {items action} hn h => ?_
  rw [automaton_eq h₀ h₁] at hn h
  exact ⟨items, hn, h.mono fun _ _ => Grammar.mem_reduceOn_lr0⟩

theorem isValid_slr1 (h₀ : Generation.ofGrammar g .lr0 log = .ok (lr0, text))
    (h₁ : Generation.ofGrammar g .slr1 log' = .ok (slr1, text')) (hvalid : lr0.isValid = true) :
    slr1.isValid = true := by
  rw [isValid_iff_conflictCount] at hvalid ⊢
  exact fun n s => Nat.le_zero.mp (hvalid n s ▸ conflictCount_le h₀ h₁ n s)

theorem goto?_eq (h₀ : Generation.ofGrammar g .lr0 log = .ok (lr0, text))
    (h₁ : Generation.ofGrammar g .slr1 log' = .ok (slr1, text')) :
    ∀ n s, slr1.table.goto? n s = lr0.table.goto? n s :=
  goto?_eq_of_transitions h₀ h₁ rfl (by rw [automaton_eq h₀ h₁])

/-- Without conflicts in LR(0) mode, the SLR(1) table is a part of the LR(0) table. -/
theorem restricts (h₀ : Generation.ofGrammar g .lr0 log = .ok (lr0, text))
    (h₁ : Generation.ofGrammar g .slr1 log' = .ok (slr1, text')) (hvalid : lr0.isValid = true) :
    slr1.table.Restricts lr0.table where
  action := by
    intro n s action haction
    obtain ⟨items, hn, hcandidate⟩ := (describes_of_ofGrammar h₁).generated.sound haction
    rw [automaton_eq h₀ h₁] at hn hcandidate
    exact (describes_of_ofGrammar h₀).generated.complete hvalid hn
      (hcandidate.mono fun _ _ => Grammar.mem_reduceOn_lr0)
  goto := goto?_eq h₀ h₁

/-- What one table without conflicts accepts, another one for the same grammar accepts within the
same limit. -/
theorem Describes.accepted_of_accepted {mode mode' : Mode} {gen gen' : Generation}
    (h : gen.Describes g mode) (h' : gen'.Describes g mode') (hvalid : gen.isValid = true)
    (hvalid' : gen'.isValid = true) {limit : Nat} {tokens : List Symbol} {r r' : ParseResult}
    (hends : r.Ends g gen.table limit limit 0 (.initial tokens))
    (hends' : r'.Ends g gen'.table limit limit 0 (.initial tokens))
    (haccepted : r.accepted = true) : r'.accepted = true := by
  obtain ⟨root, hroot⟩ := ParseResult.accepted_iff.mp haccepted
  obtain ⟨w, rest, tree, rfl, -, -, hparses, -⟩ := h.parses_of_ends hends hroot
  -- both runs build the tree, with one move for every node
  obtain ⟨s, hsteps, hstep⟩ := h.accepts hvalid hparses rest
  obtain ⟨s', hsteps', hstep'⟩ := h'.accepts hvalid' hparses rest
  have hlimit := (hends.of_accepts hsteps hstep).1.mp haccepted
  exact (hends'.of_accepts hsteps' hstep').1.mpr hlimit

/-- The two modes have the same automaton and the same states to go to, and no cell has more
conflicts in SLR(1) mode. If the LR(0) table has none, the two tables accept the same inputs within
the same limits, and with the same result: the same trace and the same tree. -/
theorem lr0_slr1_agree (g : Grammar) (log log' : LogOptions) :
    ∃ lr0 text slr1 text', Generation.ofGrammar g .lr0 log = .ok (lr0, text) ∧
      Generation.ofGrammar g .slr1 log' = .ok (slr1, text') ∧
      slr1.automaton.states = lr0.automaton.states ∧
      slr1.automaton.transitions = lr0.automaton.transitions ∧
      (∀ n s, slr1.table.goto? n s = lr0.table.goto? n s) ∧
      (∀ n s, slr1.table.conflictCount n s ≤ lr0.table.conflictCount n s) ∧
      (lr0.isValid = true → slr1.isValid = true ∧
        ∀ (limit : Nat) (tokens : List Symbol), ∃ r r',
          Engine.parse g lr0.table limit tokens = .ok r ∧
          Engine.parse g slr1.table limit tokens = .ok r' ∧
          (r.accepted = true ↔ r'.accepted = true) ∧ (r.accepted = true → r' = r)) := by
  obtain ⟨lr0, text, h₀, hdescribes₀⟩ := exists_ofGrammar g .lr0 log
  obtain ⟨slr1, text', h₁, hdescribes₁⟩ := exists_ofGrammar g .slr1 log'
  refine ⟨lr0, text, slr1, text', h₀, h₁, by rw [automaton_eq h₀ h₁], by rw [automaton_eq h₀ h₁],
    goto?_eq h₀ h₁, conflictCount_le h₀ h₁, fun hvalid => ?_⟩
  have hvalid₁ := isValid_slr1 h₀ h₁ hvalid
  refine ⟨hvalid₁, fun limit tokens => ?_⟩
  obtain ⟨r, hr, hends⟩ := Engine.parse_spec g lr0.table limit tokens
  obtain ⟨r', hr', hends'⟩ := Engine.parse_spec g slr1.table limit tokens
  have hsame : r'.accepted = true → r' = r := fun haccepted =>
    Except.ok.inj ((Engine.run_of_restricts (restricts h₀ h₁ hvalid) haccepted hr').symm.trans hr)
  have hforward := hdescribes₀.accepted_of_accepted hdescribes₁ hvalid hvalid₁ hends hends'
  exact ⟨r, r', hr, hr', ⟨hforward, fun h => hsame h ▸ h⟩, fun h => hsame (hforward h)⟩

/-! ### Nested brackets -/

namespace Nested

/-- The productions `S -> ( S )` and `S -> x`. -/
def grammar : Grammar :=
  ⟨[⟨"S", ["(", "S", ")"]⟩, ⟨"S", ["x"]⟩], by simp, by decide⟩

/-- One pair of brackets, and the end mark. -/
def tokens : List Symbol := ["(", "x", ")", "$"]

/-- Whether the LR(0) table is valid and accepts the tokens in at most six moves. -/
theorem accepts {gen : Generation} {text : Text}
    (h : Generation.ofGrammar grammar .lr0 .none = .ok (gen, text)) :
    gen.isValid = true ∧ ∀ r, Engine.parse grammar gen.table 6 tokens = .ok r →
      r.accepted = true := by
  have hrun : ((Generation.ofGrammar grammar .lr0 .none).toOption.map fun (gen, _) =>
      (gen.isValid, (Engine.parse grammar gen.table 6 tokens).toOption.map (·.accepted))) =
        some (true, some true) := by decide +kernel
  rw [h] at hrun
  obtain ⟨hvalid, hparse⟩ := Prod.ext_iff.mp (Option.some.inj hrun)
  refine ⟨hvalid, fun r hr => ?_⟩
  simpa [hr, Except.toOption] using hparse

end Nested

theorem lr0_slr1_agree_nested :
    ∃ lr0 text slr1 text', Generation.ofGrammar Nested.grammar .lr0 .none = .ok (lr0, text) ∧
      Generation.ofGrammar Nested.grammar .slr1 .none = .ok (slr1, text') ∧
      lr0.isValid = true ∧ slr1.isValid = true ∧ ∃ r, r.accepted = true ∧
        Engine.parse Nested.grammar lr0.table 6 Nested.tokens = .ok r ∧
        Engine.parse Nested.grammar slr1.table 6 Nested.tokens = .ok r := by
  obtain ⟨lr0, text, slr1, text', h₀, h₁, -, -, -, -, h⟩ :=
    lr0_slr1_agree Nested.grammar .none .none
  obtain ⟨hvalid, haccepts⟩ := Nested.accepts h₀
  obtain ⟨hvalid₁, hruns⟩ := h hvalid
  obtain ⟨r, r', hr, hr', -, hsame⟩ := hruns 6 Nested.tokens
  have haccepted := haccepts r hr
  exact ⟨lr0, text, slr1, text', h₀, h₁, hvalid, hvalid₁, r, haccepted, hr,
    hsame haccepted ▸ hr'⟩

end Generation

end ShiftReduce
