import ShiftReduce.Proofs.Engine
import ShiftReduce.Proofs.Generation
import ShiftReduce.Proofs.ViablePrefix

/-!
# ShiftReduce.Proofs.Soundness

**What a generated table makes the engine do**, whether or not the table has conflicts. The stack of
a run is a path of the automaton (`Frame.Path`), so its symbols are a string whose valid items are
those of the state on top. An action in the table comes from such an item, and `Snapshot.Leads`
lists what can happen then: no entry that the stack cannot honour is ever met. Settling a conflict
only drops actions, so it plays no part.

The invariant of a run (`Snapshot.Invariant`) adds that the trees fit the grammar and that their
leaves are the tokens read so far. Two results follow from it: an accepted input is a sentence, and
the tree that is returned is a parse tree of it; and the only failures are a missing action, a
missing token and the step limit.
-/

namespace ShiftReduce

/-! ### Stacks are paths -/

namespace Frame

/-- The states of the frames are those that the automaton goes through on their symbols. -/
inductive Path (a : Automaton) : List Frame → Prop
  | nil : Path a []
  | cons {f : Frame} {fs : List Frame} (h : Path a fs)
      (hf : a.target? (top fs) f.tree.symbol = some f.state) : Path a (f :: fs)

variable {a : Automaton}

theorem Path.follow? {fs : List Frame} (h : Path a fs) :
    a.follow? (symbols fs) = some (top fs) := by
  induction h with
  | nil => rfl
  | cons _ hf ih => rw [symbols_cons, Automaton.follow?_append_singleton, ih]; exact hf

theorem Path.of_append {taken below : List Frame} (h : Path a (taken ++ below)) : Path a below := by
  induction taken with
  | nil => exact h
  | cons f taken ih =>
      cases h with
      | cons h _ => exact ih h

/-- Where the symbols of a stack split, the stack splits. -/
theorem exists_append_of_symbols {fs : List Frame} {γ δ : List Symbol} (h : symbols fs = γ ++ δ) :
    ∃ taken below, fs = taken ++ below ∧ symbols below = γ ∧ symbols taken = δ := by
  have hlength : fs.length = γ.length + δ.length := by
    rw [← length_symbols, h, List.length_append]
  have hsplit : symbols (fs.drop δ.length) ++ symbols (fs.take δ.length) = γ ++ δ := by
    rw [← symbols_append, List.take_append_drop, h]
  have htaken : (symbols (fs.take δ.length)).length = δ.length := by
    rw [length_symbols, List.length_take]
    omega
  obtain ⟨hbelow, htaken⟩ := List.append_inj' hsplit htaken
  exact ⟨_, _, (List.take_append_drop δ.length fs).symm, hbelow, htaken⟩

end Frame

/-! ### What can happen -/

namespace Snapshot

/-- What a generated table can make the engine do. -/
inductive Leads (g : Grammar) (a : Automaton) : Snapshot → Outcome → Prop
  /-- The input has no token left. -/
  | exhausted {fs : List Frame} : Leads g a ⟨fs, []⟩ (.fails (.endOfInput (Frame.top fs)))
  /-- There is no action for the token. -/
  | refused {fs : List Frame} {token : Symbol} {rest : List Symbol} :
      Leads g a ⟨fs, token :: rest⟩ (.fails (.noAction (Frame.top fs) token))
  /-- The tree of the start symbol is all there is. -/
  | accepted {f : Frame} {rest : List Symbol} (hf : f.tree.symbol = g.start) :
      Leads g a ⟨[f], Symbol.endMark :: rest⟩ (.accepts f.tree)
  /-- A terminal is read. -/
  | shifted {fs : List Frame} {token : Symbol} {rest : List Symbol} {m : Nat}
      (ht : token ∈ g.terminals) (hm : a.target? (Frame.top fs) token = some m) :
      Leads g a ⟨fs, token :: rest⟩ (.moves ⟨⟨m, .leaf token⟩ :: fs, rest⟩)
  /-- The symbols of a right-hand side are replaced by the left-hand side. -/
  | reduced {taken below : List Frame} {input : List Symbol} {r m : Nat} {p : Production}
      (hr : 1 ≤ r) (hp : g.rule? r = some p) (hrhs : p.rhs = Frame.symbols taken)
      (hm : a.target? (Frame.top below) p.lhs = some m) :
      Leads g a ⟨taken ++ below, input⟩
        (.moves ⟨⟨m, .node r p.lhs (Frame.trees taken)⟩ :: below, input⟩)

variable {g : Grammar} {a : Automaton} {reduceOn : Production → List Symbol} {t : Table}

/-- A finished item that is valid for the stack has its right-hand side on top, and the state below
can go on with its left-hand side. -/
theorem exists_handle (hc : a.Canonical g) {fs : List Frame} (hpath : Frame.Path a fs) {r : Nat}
    {p : Production} (hr : 1 ≤ r) (hp : g.rule? r = some p)
    (hvalid : g.Valid (Frame.symbols fs) ⟨r, p.rhs.length⟩) :
    ∃ taken below m, fs = taken ++ below ∧ p.rhs = Frame.symbols taken ∧
      a.target? (Frame.top below) p.lhs = some m := by
  obtain ⟨δ, hδ, hstart⟩ := hvalid.split hp
  rw [List.take_length] at hδ
  obtain ⟨taken, below, rfl, rfl, hrhs⟩ := Frame.exists_append_of_symbols hδ
  -- the production was started because the state below scans its left-hand side
  rcases hstart.start_cases with ⟨rfl, -⟩ | ⟨i, p', hi, hs, hp'⟩
  · exact absurd hr (by omega)
  · obtain rfl : p = p' := Option.some.inj (hp.symm.trans hp')
    obtain ⟨m, hm, -⟩ := hc.exists_follow? hpath.of_append.follow? hi hs
    exact ⟨taken, below, m, rfl, hrhs.symm, hm⟩

/-- One step in a generated table. -/
theorem step_leads (hc : a.Canonical g) (ht : t.Generated g a reduceOn) {s : Snapshot}
    (hpath : Frame.Path a s.frames) : Leads g a s (s.step g t) := by
  obtain ⟨fs, _ | ⟨token, rest⟩⟩ := s
  · exact .exhausted
  rcases ha : t.action? (Frame.top fs) token with _ | action
  · simp only [step, ha, move]
    exact .refused
  obtain ⟨items, hitems, hcandidate⟩ := ht.sound ha
  obtain ⟨items', hitems', hvalid⟩ := hc.mem_iff_valid hpath.follow?
  obtain rfl : items' = items := Option.some.inj (hitems'.symm.trans hitems)
  cases hcandidate with
  | accept hi =>
      -- only the start symbol leads to the finished goal production
      have hstart := ((hvalid _).mp hi).eq_start
      obtain ⟨f, rfl⟩ : ∃ f, fs = [f] :=
        List.length_eq_one_iff.mp (by rw [← Frame.length_symbols, hstart]; rfl)
      simp only [step, ha, move, accept]
      exact .accepted (by simpa using hstart)
  | shift _ _ hterminal hm =>
      rw [step_shift ha]
      exact .shifted hterminal hm
  | @reduce r p _ hr hp hi _ =>
      obtain ⟨taken, below, m, rfl, hrhs, hm⟩ := exists_handle hc hpath hr hp ((hvalid _).mp hi)
      have hgoto := ht.goto.mpr ⟨Grammar.isNonTerminal_lhs (Grammar.mem_rules_of_rule? hp), hm⟩
      rw [step_reduce ha hp (by rw [hrhs, Frame.length_symbols]) hgoto]
      exact .reduced hr hp hrhs hm

/-! ### The invariant of a run -/

/-- What holds of every snapshot of a run on `tokens`. -/
structure Invariant (g : Grammar) (a : Automaton) (tokens : List Symbol) (s : Snapshot) : Prop where
  /-- The stack is a path of the automaton. -/
  path : Frame.Path a s.frames
  /-- The trees fit the grammar. -/
  fits : ∀ f ∈ s.frames, f.tree.Fits g
  /-- The leaves of the trees are the tokens that were read. -/
  tokens_eq : ParseTree.yields (Frame.trees s.frames) ++ s.input = tokens

namespace Invariant

variable {tokens : List Symbol} {s s' : Snapshot}

theorem initial (g : Grammar) (a : Automaton) (tokens : List Symbol) :
    Invariant g a tokens (.initial tokens) :=
  ⟨.nil, by simp [Snapshot.initial], rfl⟩

theorem of_leads (h : Invariant g a tokens s) (hs : Leads g a s (.moves s')) :
    Invariant g a tokens s' := by
  obtain ⟨hpath, hfits, htokens⟩ := h
  cases hs with
  | shifted ht hm =>
      refine ⟨.cons hpath hm, ?_, ?_⟩
      · rintro f (_ | ⟨_, hf⟩)
        · exact .leaf ht
        · exact hfits f hf
      · simpa [ParseTree.yields, ParseTree.yield] using htokens
  | reduced hr hp hrhs hm =>
      refine ⟨.cons hpath.of_append hm, ?_, ?_⟩
      · rintro f (_ | ⟨_, hf⟩)
        · refine .node hr hp hrhs fun child hchild => ?_
          obtain ⟨f, hf, rfl⟩ := Frame.mem_trees.mp hchild
          exact hfits f (List.mem_append_left _ hf)
        · exact hfits f (List.mem_append_right _ hf)
      · simpa [ParseTree.yields, ParseTree.yield] using htokens

theorem of_steps (hc : a.Canonical g) (ht : t.Generated g a reduceOn) {n : Nat} {u : Snapshot}
    (h : Steps g t n (.initial tokens) u) : Invariant g a tokens u :=
  h.invariant (fun hs hstep => hs.of_leads (hstep ▸ step_leads hc ht hs.path))
    (initial g a tokens)

/-- The tokens that were read are terminals. -/
theorem mem_terminals (h : Invariant g a tokens s) :
    ∀ token ∈ ParseTree.yields (Frame.trees s.frames), token ∈ g.terminals := by
  refine ParseTree.mem_terminals_of_mem_yields fun tree htree => ?_
  obtain ⟨f, hf, rfl⟩ := Frame.mem_trees.mp htree
  exact (h.fits f hf).mem_terminals

end Invariant

end Snapshot

/-! ### Runs with a generated table -/

namespace Generation

variable {gen : Generation} {g : Grammar} {mode : Mode}

/-- A run reaches its limit, or ends as a generated table can make it end. -/
theorem Describes.leads_of_ends (h : gen.Describes g mode) {limit : Nat} {tokens : List Symbol}
    {r : ParseResult} (hends : r.Ends g gen.table limit limit 0 (.initial tokens)) :
    r.outcome = .error (.stepLimit limit) ∨ ∃ (s : Snapshot) (o : Outcome),
      s.Invariant g gen.automaton tokens ∧ s.Leads g gen.automaton o ∧ r.Shows o := by
  cases hends with
  | limit _ ho _ => exact Or.inl ho
  | final _ hs hshows _ =>
      have hinv := Snapshot.Invariant.of_steps h.canonical h.generated hs
      exact Or.inr ⟨_, _, hinv, Snapshot.step_leads h.canonical h.generated hinv.path, hshows⟩

/-- The root of an accepted input is the root of a parse tree of the tokens before the end mark. -/
theorem Describes.parses_of_ends (h : gen.Describes g mode) {limit : Nat} {tokens : List Symbol}
    {r : ParseResult} (hends : r.Ends g gen.table limit limit 0 (.initial tokens)) {root : NodeId}
    (hroot : r.outcome = .ok root) :
    ∃ w rest tree, tokens = w ++ Symbol.endMark :: rest ∧ Symbol.endMark ∉ w ∧
      r.arena.tree root = .ok tree ∧ tree.shape.Parses g g.start w ∧
      r.arena.leaves root = .ok w := by
  rcases h.leads_of_ends hends with ho | ⟨s, o, hinv, hleads, hshows⟩
  · simp [ho] at hroot
  cases hshows with
  | failed ho => simp [ho] at hroot
  | @accepted root' shape ho hwf hshape =>
      obtain rfl : root' = root := by simpa [ho] using hroot
      cases hleads with
      | @accepted f rest hf =>
          have hfits : f.tree.Fits g := hinv.fits f (by simp)
          have hmark : Symbol.endMark ∉ f.tree.yield := fun hmem =>
            g.endMark_notMem_terminals (hfits.mem_terminals _ hmem)
          obtain ⟨tree, htree, hshape'⟩ := Option.map_eq_some_iff.mp hshape
          refine ⟨f.tree.yield, rest, tree, ?_, hmark, ?_, ?_, Arena.leaves_eq_yield hwf hshape⟩
          · simpa [ParseTree.yields] using hinv.tokens_eq.symm
          · rw [Arena.tree, htree]
          · rw [hshape']
            exact ⟨hfits, hf, rfl⟩

/-- Whatever a generated table accepts is a sentence before the first end mark, and the result has a
parse tree of it. -/
theorem parse_sound (g : Grammar) (mode : Mode) (log : LogOptions) :
    ∃ gen text, Generation.ofGrammar g mode log = .ok (gen, text) ∧
      ∀ (limit : Nat) (tokens : List Symbol),
        ∃ r, Engine.parse g gen.table limit tokens = .ok r ∧
          ∀ root, r.outcome = .ok root → ∃ w rest tree,
            tokens = w ++ Symbol.endMark :: rest ∧ Symbol.endMark ∉ w ∧
            r.arena.tree root = .ok tree ∧ tree.shape.Parses g g.start w ∧
            r.arena.leaves root = .ok w ∧ g.Derives [g.start] w := by
  obtain ⟨gen, text, hgen, hdescribes⟩ := exists_ofGrammar g mode log
  refine ⟨gen, text, hgen, fun limit tokens => ?_⟩
  obtain ⟨r, hr, hends⟩ := Engine.parse_spec g gen.table limit tokens
  refine ⟨r, hr, fun root hroot => ?_⟩
  obtain ⟨w, rest, tree, htokens, hmark, htree, hparses, hleaves⟩ :=
    hdescribes.parses_of_ends hends hroot
  exact ⟨w, rest, tree, htokens, hmark, htree, hparses, hleaves, hparses.derives⟩

/-- A generated table asks for nothing that cannot be done: a run fails only because a token has no
action, because the limit is reached, or because the input has no end mark. -/
theorem parse_failure (g : Grammar) (mode : Mode) (log : LogOptions) :
    ∃ gen text, Generation.ofGrammar g mode log = .ok (gen, text) ∧
      ∀ (limit : Nat) (tokens : List Symbol),
        ∃ r, Engine.parse g gen.table limit tokens = .ok r ∧
          ∀ failure, r.failure? = some failure →
            (∃ state token, failure = .noAction state token) ∨ failure = .stepLimit limit ∨
            Symbol.endMark ∉ tokens ∧ ∃ state, failure = .endOfInput state := by
  obtain ⟨gen, text, hgen, hdescribes⟩ := exists_ofGrammar g mode log
  refine ⟨gen, text, hgen, fun limit tokens => ?_⟩
  obtain ⟨r, hr, hends⟩ := Engine.parse_spec g gen.table limit tokens
  refine ⟨r, hr, fun failure hfailure => ?_⟩
  rw [ParseResult.failure?] at hfailure
  rcases hdescribes.leads_of_ends hends with ho | ⟨s, o, hinv, hleads, hshows⟩
  · obtain rfl : .stepLimit limit = failure := by simpa [ho] using hfailure
    exact Or.inr (Or.inl rfl)
  cases hshows with
  | accepted ho => simp [ho] at hfailure
  | @failed failure' ho =>
      obtain rfl : failure' = failure := by simpa [ho] using hfailure
      cases hleads with
      | refused => exact Or.inl ⟨_, _, rfl⟩
      | exhausted =>
          -- all tokens were read, and only terminals are
          refine Or.inr (Or.inr ⟨fun hmem => ?_, _, rfl⟩)
          rw [← hinv.tokens_eq, List.append_nil] at hmem
          exact g.endMark_notMem_terminals (hinv.mem_terminals _ hmem)

end Generation

end ShiftReduce
