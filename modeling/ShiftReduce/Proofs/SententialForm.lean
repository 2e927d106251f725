import ShiftReduce.Proofs.Automaton.Collection
import ShiftReduce.Proofs.Engine.Trace
import ShiftReduce.Proofs.Soundness

/-!
# ShiftReduce.Proofs.SententialForm

**What was read can always be continued.** A string with a valid item begins a string that the start
symbol derives (`Grammar.Valid.exists_derives`). The stack of a run with a generated table is such a
string at every step, whether or not the table has conflicts and whatever becomes of the run. Its
symbols derive the tokens that were read, so these begin a string that the start symbol derives, and
so they do with the token that is shifted next. A reduction on a token that cannot follow delays the
failure, but no such token is ever read.
-/

namespace ShiftReduce

/-! ### Strings with a valid item -/

namespace Grammar

variable {g : Grammar}

theorem drop_marker_of_scanned? {i : Item} {p : Production} (hp : g.rule? i.rule = some p)
    {s : Symbol} (hs : g.scanned? i = some s) :
    p.rhs.drop i.marker = s :: p.rhs.drop (i.marker + 1) := by
  obtain ⟨p', hp', hget⟩ := scanned?_eq_some.mp hs
  obtain rfl : p' = p := Option.some.inj (hp'.symm.trans hp)
  obtain ⟨hlt, rfl⟩ := List.getElem?_eq_some_iff.mp hget
  exact List.drop_eq_getElem_cons hlt

/-- The start symbol derives the string of a valid item, followed by the symbols after the marker
and something more. -/
theorem Valid.exists_derives {γ : List Symbol} {i : Item} (h : g.Valid γ i) :
    ∃ p β, g.rule? i.rule = some p ∧ g.Derives [g.start] (γ ++ p.rhs.drop i.marker ++ β) := by
  induction h with
  | goal => exact ⟨g.goalRule, [], rfl, .refl _⟩
  | @advance γ i s _ hs ih =>
      obtain ⟨p, β, hp, hβ⟩ := ih
      rw [drop_marker_of_scanned? hp hs] at hβ
      exact ⟨p, β, hp, by simpa [Item.advance] using hβ⟩
  | @predict γ i r q _ hs hq ih =>
      obtain ⟨p, β, hp, hβ⟩ := ih
      rw [drop_marker_of_scanned? hp hs] at hβ
      -- the scanned symbol is replaced by the right-hand side that is predicted
      have hrule : g.Derives [q.lhs] q.rhs := .of_rule (mem_rules_of_rule? hq)
      have hstep := (hrule.append_right (p.rhs.drop (i.marker + 1) ++ β)).append_left γ
      exact ⟨q, p.rhs.drop (i.marker + 1) ++ β, hq, hβ.trans (by simpa using hstep)⟩

end Grammar

/-! ### Stacks -/

namespace Frame.Path

variable {g : Grammar} {a : Automaton} {fs : List Frame}

/-- An item that is valid for the stack below a frame scans the symbol of the frame. -/
theorem exists_scanned (hc : a.Canonical g) {f : Frame} (h : Path a (f :: fs)) :
    ∃ i, g.Valid (symbols fs) i ∧ g.scanned? i = some f.tree.symbol := by
  obtain ⟨i, hi⟩ := hc.exists_valid_of_follow? h.follow?
  rw [symbols_cons] at hi
  exact hi.exists_scanned

/-- The symbols of a stack begin a string that the start symbol derives. -/
theorem exists_derives (hc : a.Canonical g) (h : Path a fs) :
    ∃ β, g.Derives [g.start] (symbols fs ++ β) := by
  obtain ⟨i, hi⟩ := hc.exists_valid_of_follow? h.follow?
  obtain ⟨p, β, -, hβ⟩ := hi.exists_derives
  exact ⟨p.rhs.drop i.marker ++ β, by simpa using hβ⟩

end Frame.Path

namespace Snapshot.Invariant

variable {g : Grammar} {a : Automaton} {tokens : List Symbol} {s : Snapshot}

/-- The symbols of the stack derive the tokens that were read. -/
theorem derives (h : Invariant g a tokens s) :
    g.Derives (Frame.symbols s.frames) (ParseTree.yields (Frame.trees s.frames)) := by
  refine ParseTree.derives_yields fun tree htree => ?_
  obtain ⟨f, hf, rfl⟩ := Frame.mem_trees.mp htree
  exact (h.fits f hf).derives

end Snapshot.Invariant

/-! ### Traces -/

/-- The tokens that the steps of a trace read. -/
def TraceStep.shifted (trace : List TraceStep) : List Symbol :=
  trace.filterMap fun step =>
    match step.action with
    | some (.shift _) => some step.token
    | _ => none

theorem TraceStep.shifted_append_singleton (trace : List TraceStep) (step : TraceStep) :
    shifted (trace ++ [step]) = shifted trace ++ shifted [step] :=
  List.filterMap_append

/-- The tokens that were read and those that are left are all tokens. -/
theorem Config.Reached.shifted_append {g : Grammar} {t : Table} {tokens : List Symbol}
    {trace : List TraceStep} {c : Config} (h : c.Reached g t tokens trace) :
    TraceStep.shifted trace ++ c.input = tokens := by
  induction h with
  | initial => rfl
  | @moved trace c next step _ hturn ih =>
      obtain ⟨hrecords, -, hmoves⟩ := turn_moved hturn
      rw [TraceStep.shifted_append_singleton, ← ih, List.append_assoc]
      congr 1
      generalize haction : step.action = action at hmoves
      cases hmoves with
      | shift hinput hrest _ =>
          have htoken := hrecords.token_eq
          rw [hinput] at htoken
          simp [TraceStep.shifted, haction, htoken, hrest, hinput]
      | reduce _ hinput _ _ _ => simp [TraceStep.shifted, haction, hinput]

namespace Generation

/-- A token that is shifted goes on with the symbols of the stack. -/
theorem Describes.exists_derives_of_shift {gen : Generation} {g : Grammar} {mode : Mode}
    (h : gen.Describes g mode) {fs : List Frame} (hpath : Frame.Path gen.automaton fs)
    {token : Symbol} {target : Nat}
    (ha : gen.table.action? (Frame.top fs) token = some (.shift target)) :
    ∃ β, g.Derives [g.start] (Frame.symbols fs ++ token :: β) := by
  obtain ⟨items, hitems, hcandidate⟩ := h.generated.sound ha
  obtain ⟨items', hitems', hvalid⟩ := h.canonical.mem_iff_valid hpath.follow?
  obtain rfl : items' = items := Option.some.inj (hitems'.symm.trans hitems)
  cases hcandidate with
  | @shift i _ _ hi hs _ _ =>
      obtain ⟨p, β, hp, hβ⟩ := ((hvalid i).mp hi).exists_derives
      rw [Grammar.drop_marker_of_scanned? hp hs] at hβ
      exact ⟨p.rhs.drop (i.marker + 1) ++ β, by simpa using hβ⟩

/-- At every step of a run, the symbols on the stack derive the tokens that were shifted before, and
the start symbol derives a string that begins with these tokens. If the step shifts a token, the
string can be chosen to go on with it. -/
theorem trace_viable (g : Grammar) (mode : Mode) (log : LogOptions) :
    ∃ gen text, Generation.ofGrammar g mode log = .ok (gen, text) ∧
      ∀ (limit : Nat) (tokens : List Symbol),
        ∃ r, Engine.parse g gen.table limit tokens = .ok r ∧
          ∀ before step after, r.trace = before ++ step :: after →
            tokens = TraceStep.shifted before ++ step.input ∧
            g.Derives (Cell.symbols step.stack) (TraceStep.shifted before) ∧
            (∃ β, g.Derives [g.start] (TraceStep.shifted before ++ β)) ∧
            ∀ target, step.action = some (.shift target) →
              ∃ β, g.Derives [g.start] (TraceStep.shifted before ++ step.token :: β) := by
  obtain ⟨gen, text, hgen, hdescribes⟩ := exists_ofGrammar g mode log
  refine ⟨gen, text, hgen, fun limit tokens => ?_⟩
  obtain ⟨r, hr, hstops⟩ := Engine.parse_stops g gen.table limit tokens
  refine ⟨r, hr, fun before step after htrace => ?_⟩
  obtain ⟨c, hc, hrecords⟩ := hstops.traced before step after htrace
  obtain ⟨s, hsteps, htracks⟩ := hc.exists_tracks
  have hinv := Snapshot.Invariant.of_steps hdescribes.canonical hdescribes.generated hsteps
  -- the tokens that were shifted are the leaves of the trees on the stack
  have htokens : TraceStep.shifted before ++ s.input = tokens := by
    rw [← htracks.input_eq]
    exact hc.shifted_append
  have hshifted : ParseTree.yields (Frame.trees s.frames) = TraceStep.shifted before :=
    List.append_cancel_right (hinv.tokens_eq.trans htokens.symm)
  have hderives := hinv.derives
  rw [hshifted] at hderives
  refine ⟨?_, ?_, ?_, fun target haction => ?_⟩
  · rw [hrecords.input_eq, htracks.input_eq, htokens]
  · rw [hrecords.stack_eq, htracks.stack_eq, Frame.symbols_cells]
    exact hderives
  · obtain ⟨β, hβ⟩ := hinv.path.exists_derives hdescribes.canonical
    exact ⟨β, hβ.trans (hderives.append_right β)⟩
  · have hstate : step.state = Frame.top s.frames :=
      Option.some.inj (hrecords.state_eq.symm.trans htracks.topState?_stack)
    have ha := hrecords.action?_eq haction
    rw [hstate] at ha
    obtain ⟨β, hβ⟩ := hdescribes.exists_derives_of_shift hinv.path ha
    exact ⟨β, hβ.trans (hderives.append_right (step.token :: β))⟩

end Generation

end ShiftReduce
