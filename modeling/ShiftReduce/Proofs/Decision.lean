import Mathlib.Data.Set.Finite.List
import ShiftReduce.Proofs.Completeness
import ShiftReduce.Proofs.Lookahead.Exact
import ShiftReduce.Proofs.SententialForm

/-!
# ShiftReduce.Proofs.Decision

**A table without conflicts decides every input**, if every non-terminal of the grammar derives a
string of terminals. On a token that cannot follow, such a table may reduce many times before it
refuses; that it does not reduce forever is shown by counting the snapshots of a run.

The stack of any snapshot can be completed to a sentence (`Grammar.Productive`), and what is known
of the run on that sentence carries over:

* the run on the sentence comes to the very stack (`Generation.Describes.steps_to`). It ends, so the
  engine cannot push frames without leaves until the state on top recurs
  (`Generation.Describes.top_ne`). So the height of a stack is bounded by the number of states and
  the number of tokens that were read (`Generation.Describes.length_le`);
* the sentence has one parse tree, so the symbols of the stack and the tokens that were read
  determine the number of nodes of the trees on it (`Generation.Describes.sizes_eq`). That number
  grows by one with every move, so no run has two snapshots with the same symbols and the same rest
  of the input.

There are finitely many strings of symbols of bounded length, so a run makes finitely many moves
(`Generation.Describes.finite_moves`).
-/

namespace ShiftReduce

open ParseTree

/-! ### Productive grammars -/

namespace Grammar

variable {g : Grammar}

/-- Every non-terminal derives a string of terminals. -/
def Productive (g : Grammar) : Prop :=
  ∀ s, g.isNonTerminal s = true → ∃ w, (∀ t ∈ w, t ∈ g.terminals) ∧ g.Derives [s] w

/-- The symbols of a grammar: its terminals and its non-terminals. -/
def HasSymbol (g : Grammar) (s : Symbol) : Prop :=
  s ∈ g.terminals ∨ g.isNonTerminal s = true

theorem hasSymbol_of_mem_rhs {p : Production} (hp : p ∈ g.rules) {s : Symbol} (hs : s ∈ p.rhs) :
    g.HasSymbol s := by
  cases hnon : g.isNonTerminal s with
  | true => exact Or.inr hnon
  | false => exact Or.inl (mem_terminals.mpr ⟨hnon, p, hp, hs⟩)

/-- Only symbols of the grammar are derived from them. -/
theorem Derives.hasSymbol {u v : List Symbol} (h : g.Derives u v) (hu : ∀ s ∈ u, g.HasSymbol s) :
    ∀ s ∈ v, g.HasSymbol s := by
  induction h with
  | refl => exact hu
  | tail _ hstep ih =>
      obtain ⟨before, after, hp⟩ := hstep
      intro s hs
      simp only [List.mem_append, List.mem_cons] at hs ih
      rcases hs with (hs | hs) | hs
      · exact ih s (Or.inl hs)
      · exact hasSymbol_of_mem_rhs hp hs
      · exact ih s (Or.inr (Or.inr hs))

/-- In a productive grammar every string of symbols derives a string of terminals. -/
theorem Productive.exists_derives (h : g.Productive) {u : List Symbol}
    (hu : ∀ s ∈ u, g.HasSymbol s) : ∃ w, (∀ t ∈ w, t ∈ g.terminals) ∧ g.Derives u w := by
  induction u with
  | nil => exact ⟨[], by simp, .refl _⟩
  | cons s u ih =>
      obtain ⟨w, hw, hderives⟩ := ih fun x hx => hu x (List.mem_cons_of_mem _ hx)
      obtain ⟨v, hv, hhead⟩ : ∃ v, (∀ t ∈ v, t ∈ g.terminals) ∧ g.Derives [s] v := by
        rcases hu s List.mem_cons_self with hs | hs
        · exact ⟨[s], by simpa using hs, .refl _⟩
        · exact h s hs
      refine ⟨v ++ w, fun t ht => ?_, hhead.append hderives⟩
      exact (List.mem_append.mp ht).elim (hv t) (hw t)

end Grammar

/-! ### Stacks and sentences -/

namespace Frame

variable {g : Grammar} {a : Automaton}

/-- In a productive grammar a stack can be completed to a sentence. -/
theorem Path.exists_completion (hc : a.Canonical g) (hproductive : g.Productive) {fs : List Frame}
    (h : Path a fs) :
    ∃ z, (∀ t ∈ z, t ∈ g.terminals) ∧ g.Derives [g.start] (symbols fs ++ z) := by
  obtain ⟨β, hβ⟩ := h.exists_derives hc
  have hstart : ∀ s ∈ [g.start], g.HasSymbol s := by
    intro s hs
    rw [List.mem_singleton.mp hs]
    exact Or.inr g.isNonTerminal_start
  have hsymbols := hβ.hasSymbol hstart
  obtain ⟨z, hz, hderives⟩ := hproductive.exists_derives (u := β) fun s hs =>
    hsymbols s (List.mem_append_right _ hs)
  exact ⟨z, hz, hβ.trans (hderives.append_left _)⟩

/-- The trees on a stack and the leaves that complete it fold into a parse tree. How many nodes that
adds depends on the symbols of the stack only. -/
theorem exists_parses {γ z : List Symbol} (hz : ∀ t ∈ z, t ∈ g.terminals)
    (hderives : g.Derives [g.start] (γ ++ z)) :
    ∃ n, ∀ fs : List Frame, symbols fs = γ → (∀ f ∈ fs, f.tree.Fits g) →
      ∃ tree : ParseTree, tree.Parses g g.start (yields (trees fs) ++ z) ∧
        tree.size = sizes (trees fs) + n := by
  obtain ⟨n, hfold⟩ := hderives.exists_fold (by simpa using g.start_ne_goal.symm)
  obtain ⟨leaves, hleaves, hyields, hleavesFit⟩ := Grammar.exists_leaves hz
  refine ⟨sizes leaves + n, fun fs hsymbols hfits => ?_⟩
  have hforest : (trees fs ++ leaves).map symbol = γ ++ z := by
    rw [List.map_append, hleaves, ← hsymbols]
    rfl
  have hforestFits : ∀ t ∈ trees fs ++ leaves, t.Fits g := by
    intro t ht
    rcases List.mem_append.mp ht with ht | ht
    · obtain ⟨f, hf, rfl⟩ := mem_trees.mp ht
      exact hfits f hf
    · exact hleavesFit t ht
  obtain ⟨ts, hts, hyield, hsize, htsFit⟩ := hfold _ hforest hforestFits
  obtain ⟨tree, rest, rfl, hsymbol, hrest⟩ := List.map_eq_cons_iff.mp hts
  obtain rfl : rest = [] := List.map_eq_nil_iff.mp hrest
  refine ⟨tree, ⟨htsFit tree List.mem_cons_self, hsymbol, ?_⟩, ?_⟩
  · simpa [yields, hyields] using hyield
  · simp only [sizes, sizes_append] at hsize
    omega

theorem Path.tail {f : Frame} {fs : List Frame} (h : Path a (f :: fs)) : Path a fs := by
  cases h with
  | cons h _ => exact h

/-- Frames can stand on every stack with the same state on top. -/
theorem Path.append_congr {taken below below' : List Frame} (h : Path a (taken ++ below))
    (hbelow : Path a below') (htop : top below' = top below) :
    Path a (taken ++ below') ∧ top (taken ++ below') = top (taken ++ below) := by
  induction taken with
  | nil => exact ⟨hbelow, htop⟩
  | cons f taken ih =>
      rw [List.cons_append] at h
      cases h with
      | cons h hf =>
          obtain ⟨hpath, heq⟩ := ih h
          rw [← heq] at hf
          exact ⟨.cons hpath hf, rfl⟩

theorem Path.state_lt (hc : a.Canonical g) {fs : List Frame} (h : Path a fs) :
    ∀ f ∈ fs, f.state < a.states.size := by
  induction h with
  | nil => simp
  | cons _ hm ih =>
      obtain ⟨items, -, -, hn⟩ := hc.target?_eq_some.mp hm
      exact List.forall_mem_cons.mpr ⟨(Array.getElem?_eq_some_iff.mp hn).1, ih⟩

/-- Every frame is followed by a token that can follow its symbol, where `input` comes after the
top frame. -/
inductive Continues (g : Grammar) : List Frame → List Symbol → Prop
  | nil {input : List Symbol} : Continues g [] input
  | cons {f : Frame} {fs : List Frame} {input : List Symbol}
      (h : Continues g fs (f.tree.yield ++ input))
      (hf : g.isNonTerminal f.tree.symbol = true →
        ∃ x rest, input = x :: rest ∧ g.Follows f.tree.symbol x) : Continues g (f :: fs) input

theorem Continues.append_inv {taken below : List Frame} {input : List Symbol}
    (h : Continues g (taken ++ below) input) :
    Continues g taken input ∧ Continues g below (yields (trees taken) ++ input) := by
  induction taken generalizing input with
  | nil => exact ⟨.nil, h⟩
  | cons f taken ih =>
      cases h with
      | cons h hf =>
          obtain ⟨htaken, hbelow⟩ := ih h
          exact ⟨.cons htaken hf, by simpa [yields] using hbelow⟩

/-- A completion of a stack continues it. -/
theorem continues_of_derives {fs : List Frame} (hfits : ∀ f ∈ fs, f.tree.Fits g) :
    ∀ {z : List Symbol}, (∀ t ∈ z, t ∈ g.terminals) → g.Derives [g.start] (symbols fs ++ z) →
      Continues g fs (z ++ [Symbol.endMark]) := by
  induction fs with
  | nil => exact fun _ _ => .nil
  | cons f fs ih =>
      intro z hz hderives
      rw [symbols_cons, List.append_assoc, List.singleton_append] at hderives
      have hf : f.tree.Fits g := hfits f List.mem_cons_self
      refine .cons ?_ fun hnon => ?_
      · rw [← List.append_assoc]
        have hbelow : g.Derives [g.start] (symbols fs ++ (f.tree.yield ++ z)) :=
          hderives.trans ((hf.derives.append_right z).append_left _)
        refine ih (fun f' hf' => hfits f' (List.mem_cons_of_mem _ hf')) (fun t ht => ?_) hbelow
        exact (List.mem_append.mp ht).elim (hf.mem_terminals t) (hz t)
      · cases z with
        | nil =>
            have hgoal : g.Derives [Symbol.goal] [g.start] :=
              .of_rule (p := g.goalRule) (Grammar.mem_rules_of_rule? g.rule?_zero)
            exact ⟨_, [], rfl, (Grammar.follows_iff hnon).mpr
              (Or.inl ⟨rfl, symbols fs, hgoal.trans hderives⟩)⟩
        | cons y z =>
            exact ⟨y, z ++ [Symbol.endMark], rfl, (Grammar.follows_iff hnon).mpr
              (Or.inr ⟨hz y List.mem_cons_self, g.start, symbols fs, z, g.isNonTerminal_start,
                hderives⟩)⟩

end Frame

namespace Generation

variable {gen : Generation} {g : Grammar} {mode : Mode}

/-- The engine puts a frame on the stack below it, if the token after it can follow. -/
theorem Describes.steps_frame (h : gen.Describes g mode) (hvalid : gen.isValid = true) {f : Frame}
    {fs : List Frame} (hpath : Frame.Path gen.automaton (f :: fs)) (hfits : f.tree.Fits g)
    {input : List Symbol} (hinput : g.isNonTerminal f.tree.symbol = true →
      ∃ x rest, input = x :: rest ∧ g.Follows f.tree.symbol x) :
    Snapshot.Steps g gen.table f.tree.size ⟨fs, f.tree.yield ++ input⟩ ⟨f :: fs, input⟩ := by
  obtain ⟨i, hi, hscanned⟩ := hpath.exists_scanned h.canonical
  obtain ⟨state, tree⟩ := f
  cases hpath with
  | cons hpath hm =>
      cases hfits with
      | leaf hs =>
          have ha := h.action?_shift hvalid hpath hi hscanned hs hm
          exact .single (Snapshot.step_shift ha)
      | node hr hp hrhs hchildren =>
          obtain ⟨x, rest, rfl, hx⟩ :=
            hinput (Grammar.isNonTerminal_lhs (Grammar.mem_rules_of_rule? hp))
          have hbuilds := h.builds hvalid (.node hr hp hrhs hchildren)
          obtain ⟨m, hm', hsteps⟩ := hbuilds rest hpath hi hscanned hx
          obtain rfl : m = state := Option.some.inj (hm'.symm.trans hm)
          exact hsteps

/-- The engine puts frames that can be continued on the stack below them. -/
theorem Describes.steps_to (h : gen.Describes g mode) (hvalid : gen.isValid = true)
    {taken below : List Frame} (hpath : Frame.Path gen.automaton (taken ++ below))
    (hfits : ∀ f ∈ taken, f.tree.Fits g) :
    ∀ {input : List Symbol}, Frame.Continues g taken input →
      Snapshot.Steps g gen.table (sizes (Frame.trees taken))
        ⟨below, yields (Frame.trees taken) ++ input⟩ ⟨taken ++ below, input⟩ := by
  induction taken with
  | nil => exact fun _ => .refl _
  | cons f taken ih =>
      intro input hcontinues
      cases hcontinues with
      | cons hcontinues hinput =>
          have hrest := ih hpath.tail (fun f' hf' => hfits f' (List.mem_cons_of_mem _ hf'))
            hcontinues
          have hlast := h.steps_frame hvalid hpath (hfits f List.mem_cons_self) hinput
          simpa [yields, sizes] using hrest.trans hlast

/-- The run on the leaves of a stack and a continuation comes to the stack. -/
theorem Describes.steps_to_stack (h : gen.Describes g mode) (hvalid : gen.isValid = true)
    {fs : List Frame} (hpath : Frame.Path gen.automaton fs) (hfits : ∀ f ∈ fs, f.tree.Fits g)
    {input : List Symbol} (hinput : Frame.Continues g fs input) :
    Snapshot.Steps g gen.table (sizes (Frame.trees fs))
      (.initial (yields (Frame.trees fs) ++ input)) ⟨fs, input⟩ := by
  have hpath' : Frame.Path gen.automaton (fs ++ []) := by rwa [List.append_nil]
  have hsteps := h.steps_to hvalid hpath' hfits hinput
  rwa [List.append_nil] at hsteps

/-! ### Stacks are bounded -/

/-- Frames without leaves that lead back to the state that they stand on are pushed again and
again. -/
theorem Describes.exists_steps_of_recurring (h : gen.Describes g mode)
    (hvalid : gen.isValid = true) {taken below : List Frame}
    (hpath : Frame.Path gen.automaton (taken ++ below)) (hfits : ∀ f ∈ taken, f.tree.Fits g)
    (hne : taken ≠ []) (hyields : yields (Frame.trees taken) = [])
    (htop : Frame.top (taken ++ below) = Frame.top below) {input : List Symbol}
    (hinput : Frame.Continues g taken input) (k : Nat) :
    ∀ {fs : List Frame}, Frame.Path gen.automaton fs → Frame.top fs = Frame.top below →
      ∃ n s, k ≤ n ∧ Snapshot.Steps g gen.table n ⟨fs, input⟩ s := by
  induction k with
  | zero => exact fun _ _ => ⟨0, _, Nat.le_refl 0, .refl _⟩
  | succ k ih =>
      intro fs hfs htopfs
      obtain ⟨hpath', htop'⟩ := hpath.append_congr hfs htopfs
      obtain ⟨n, s, hn, hrest⟩ := ih hpath' (htop'.trans htop)
      have hround := h.steps_to hvalid hpath' hfits hinput
      rw [hyields, List.nil_append] at hround
      have hlength := length_le_sizes (Frame.trees taken)
      rw [Frame.length_trees] at hlength
      have hpos := List.length_pos_iff.mpr hne
      exact ⟨_, s, by omega, hround.trans hrest⟩

/-- Frames without leaves never lead back to the state that they stand on: the run on a sentence
with these frames on its stack would not end. -/
theorem Describes.top_ne (h : gen.Describes g mode) (hvalid : gen.isValid = true)
    (hproductive : g.Productive) {taken below : List Frame}
    (hpath : Frame.Path gen.automaton (taken ++ below))
    (hfits : ∀ f ∈ taken ++ below, f.tree.Fits g) (hne : taken ≠ [])
    (hyields : yields (Frame.trees taken) = []) :
    Frame.top (taken ++ below) ≠ Frame.top below := by
  intro htop
  obtain ⟨z, hz, hderives⟩ := hpath.exists_completion h.canonical hproductive
  obtain ⟨htaken, hbelow⟩ := (Frame.continues_of_derives hfits hz hderives).append_inv
  obtain ⟨n, hparses⟩ := Frame.exists_parses hz hderives
  obtain ⟨tree, htree, -⟩ := hparses _ rfl hfits
  obtain ⟨s, hs, hstep⟩ := h.accepts hvalid htree []
  have hfinal : (s.step g gen.table).Final := by simp [hstep, Outcome.Final]
  -- the run on the sentence comes to the stack below the frames, and then pushes them forever
  have hreach := h.steps_to_stack hvalid hpath.of_append
    (fun f hf => hfits f (List.mem_append_right _ hf)) hbelow
  obtain ⟨m, u, hm, hlong⟩ := h.exists_steps_of_recurring hvalid hpath
    (fun f hf => hfits f (List.mem_append_left _ hf)) hne hyields htop htaken (tree.size + 1)
    hpath.of_append rfl
  rw [hyields, List.nil_append] at hreach
  have hrun := hreach.trans hlong
  rw [Frame.trees_append, yields_append, hyields, List.append_nil, List.append_assoc] at hs
  have hle := hs.le_of_final hfinal hrun
  omega

/-- So the states on top of frames without leaves are all different. -/
theorem Describes.nodup_states (h : gen.Describes g mode) (hvalid : gen.isValid = true)
    (hproductive : g.Productive) {taken below : List Frame}
    (hpath : Frame.Path gen.automaton (taken ++ below))
    (hfits : ∀ f ∈ taken ++ below, f.tree.Fits g) (hyields : yields (Frame.trees taken) = []) :
    (taken.map (·.state)).Nodup := by
  induction taken with
  | nil => exact List.nodup_nil
  | cons f taken ih =>
      rw [List.map_cons, List.nodup_cons]
      constructor
      · intro hmem
        obtain ⟨f', hf', hstate⟩ := List.mem_map.mp hmem
        obtain ⟨between, rest, rfl⟩ := List.append_of_mem hf'
        have happend : (f :: (between ++ f' :: rest)) ++ below =
            (f :: between) ++ (f' :: (rest ++ below)) := by simp
        rw [happend] at hpath hfits
        have hempty : yields (Frame.trees (f :: between)) = [] := by
          rw [← List.cons_append, Frame.trees_append, yields_append] at hyields
          exact (List.append_eq_nil_iff.mp hyields).2
        exact h.top_ne hvalid hproductive hpath hfits (List.cons_ne_nil _ _) hempty hstate.symm
      · rw [Frame.trees_cons, yields_append] at hyields
        exact ih hpath.tail (fun x hx => hfits x (List.mem_cons_of_mem _ hx))
          (List.append_eq_nil_iff.mp hyields).1

theorem Describes.length_le_states (h : gen.Describes g mode) (hvalid : gen.isValid = true)
    (hproductive : g.Productive) {taken below : List Frame}
    (hpath : Frame.Path gen.automaton (taken ++ below))
    (hfits : ∀ f ∈ taken ++ below, f.tree.Fits g) (hyields : yields (Frame.trees taken) = []) :
    taken.length ≤ gen.automaton.states.size := by
  have hnodup := h.nodup_states hvalid hproductive hpath hfits hyields
  have hsubset : taken.map (·.state) ⊆ List.range gen.automaton.states.size := by
    intro n hn
    obtain ⟨f, hf, rfl⟩ := List.mem_map.mp hn
    exact List.mem_range.mpr (hpath.state_lt h.canonical f (List.mem_append_left _ hf))
  simpa using (List.subperm_of_subset hnodup hsubset).length_le

/-- Between two frames with leaves there are no more frames than states. The induction goes down the
stack, with the frames without leaves that were met last. -/
theorem Describes.length_append_le (h : gen.Describes g mode) (hvalid : gen.isValid = true)
    (hproductive : g.Productive) (fs : List Frame) : ∀ taken : List Frame,
    Frame.Path gen.automaton (taken ++ fs) → (∀ f ∈ taken ++ fs, f.tree.Fits g) →
    yields (Frame.trees taken) = [] →
    (taken ++ fs).length ≤
      ((yields (Frame.trees fs)).length + 1) * (gen.automaton.states.size + 1) := by
  induction fs with
  | nil =>
      intro taken hpath hfits hyields
      have hle := h.length_le_states hvalid hproductive hpath hfits hyields
      simp only [List.append_nil, Frame.trees_nil, yields, List.length_nil]
      omega
  | cons f fs ih =>
      intro taken hpath hfits hyields
      rw [Frame.trees_cons, yields_append]
      by_cases hf : yields [f.tree] = []
      · have happend : taken ++ f :: fs = (taken ++ [f]) ++ fs := by simp
        rw [happend] at hpath hfits ⊢
        rw [hf, List.append_nil]
        refine ih _ hpath hfits ?_
        rw [Frame.trees_append, yields_append, hyields, List.append_nil]
        exact hf
      · have hpos := List.length_pos_iff.mpr hf
        have htaken := h.length_le_states hvalid hproductive hpath hfits hyields
        have hrest := ih [] hpath.of_append.tail
          (fun x hx => hfits x (List.mem_append_right _ (List.mem_cons_of_mem _ hx))) rfl
        rw [List.nil_append] at hrest
        calc (taken ++ f :: fs).length
          _ ≤ (gen.automaton.states.size + 1) + fs.length := by
              rw [List.length_append, List.length_cons]
              omega
          _ ≤ ((yields (Frame.trees fs)).length + 1 + 1) * (gen.automaton.states.size + 1) := by
              rw [Nat.add_mul _ 1, Nat.one_mul]
              omega
          _ ≤ ((yields (Frame.trees fs) ++ yields [f.tree]).length + 1) *
                (gen.automaton.states.size + 1) := by
              refine Nat.mul_le_mul_right _ ?_
              rw [List.length_append]
              omega

/-- The height of the stack is bounded by the number of tokens that were read. -/
theorem Describes.length_le (h : gen.Describes g mode) (hvalid : gen.isValid = true)
    (hproductive : g.Productive) {tokens : List Symbol} {s : Snapshot}
    (hs : s.Invariant g gen.automaton tokens) :
    s.frames.length ≤ (tokens.length + 1) * (gen.automaton.states.size + 1) := by
  have hle := h.length_append_le hvalid hproductive s.frames [] hs.path hs.fits rfl
  have htokens : (yields (Frame.trees s.frames)).length ≤ tokens.length := by
    rw [← hs.tokens_eq, List.length_append]
    omega
  exact hle.trans (Nat.mul_le_mul_right _ (Nat.succ_le_succ htokens))

/-! ### Moves are counted -/

/-- The symbols and the leaves of a stack determine how many nodes its trees have. -/
theorem Describes.sizes_eq (h : gen.Describes g mode) (hvalid : gen.isValid = true)
    (hproductive : g.Productive) {fs fs' : List Frame} (hpath : Frame.Path gen.automaton fs)
    (hfits : ∀ f ∈ fs, f.tree.Fits g) (hfits' : ∀ f ∈ fs', f.tree.Fits g)
    (hsymbols : Frame.symbols fs' = Frame.symbols fs)
    (hyields : yields (Frame.trees fs') = yields (Frame.trees fs)) :
    sizes (Frame.trees fs') = sizes (Frame.trees fs) := by
  obtain ⟨z, hz, hderives⟩ := hpath.exists_completion h.canonical hproductive
  obtain ⟨n, hparses⟩ := Frame.exists_parses hz hderives
  obtain ⟨tree, htree, hsize⟩ := hparses fs rfl hfits
  obtain ⟨tree', htree', hsize'⟩ := hparses fs' hsymbols hfits'
  rw [hyields] at htree'
  obtain rfl : tree = tree' := h.eq_of_parses hvalid htree htree'
  omega

end Generation

namespace Snapshot

variable {g : Grammar} {a : Automaton} {reduceOn : Production → List Symbol} {t : Table}

/-- Every move adds a node to the trees on the stack. -/
theorem Leads.sizes_eq {s s' : Snapshot} (h : Leads g a s (.moves s')) :
    sizes (Frame.trees s'.frames) = sizes (Frame.trees s.frames) + 1 := by
  cases h with
  | shifted => simp [sizes, size]
  | reduced =>
      simp only [Frame.trees_cons, Frame.trees_append, sizes_append, sizes, size]
      omega

theorem Steps.sizes_eq (hc : a.Canonical g) (ht : t.Generated g a reduceOn) {n : Nat}
    {tokens : List Symbol} {s u : Snapshot} (h : Steps g t n s u) (hs : Invariant g a tokens s) :
    sizes (Frame.trees u.frames) = sizes (Frame.trees s.frames) + n := by
  induction h with
  | refl => rfl
  | head hstep _ ih =>
      have hleads := step_leads hc ht hs.path
      rw [hstep] at hleads
      rw [ih (hs.of_leads hleads), hleads.sizes_eq]
      omega

end Snapshot

/-! ### Snapshots are finitely many -/

theorem Grammar.finite_hasSymbol (g : Grammar) : {s | g.HasSymbol s}.Finite := by
  refine (List.finite_toSet (g.terminals.toList ++ g.nonTerminals.toList)).subset fun s hs => ?_
  simpa [HasSymbol, mem_nonTerminals] using hs

/-- There are finitely many strings of symbols up to a length. -/
theorem Grammar.finite_strings (g : Grammar) (n : Nat) :
    {u : List Symbol | u.length ≤ n ∧ ∀ s ∈ u, g.HasSymbol s}.Finite := by
  have : Finite {s // g.HasSymbol s} := g.finite_hasSymbol.to_subtype
  refine ((List.finite_length_le {s // g.HasSymbol s} n).image (List.map Subtype.val)).subset ?_
  intro u hu
  exact ⟨u.attachWith _ hu.2, by simpa using hu.1, by simp⟩

theorem ParseTree.Fits.hasSymbol {g : Grammar} {tree : ParseTree} (h : tree.Fits g) :
    g.HasSymbol tree.symbol := by
  cases h with
  | leaf h => exact Or.inl h
  | node _ hp => exact Or.inr (Grammar.isNonTerminal_lhs (Grammar.mem_rules_of_rule? hp))

namespace Generation

variable {gen : Generation} {g : Grammar} {mode : Mode}

/-- No run has two snapshots with the same symbols and the same number of tokens left: both have
read the same tokens, so their trees have the same number of nodes. -/
theorem Describes.moves_unique (h : gen.Describes g mode) (hvalid : gen.isValid = true)
    (hproductive : g.Productive) {tokens : List Symbol} {m n : Nat} {u v : Snapshot}
    (hu : Snapshot.Steps g gen.table m (.initial tokens) u)
    (hv : Snapshot.Steps g gen.table n (.initial tokens) v)
    (hsymbols : Frame.symbols u.frames = Frame.symbols v.frames)
    (hlength : u.input.length = v.input.length) : m = n := by
  have hu' := Snapshot.Invariant.of_steps h.canonical h.generated hu
  have hv' := Snapshot.Invariant.of_steps h.canonical h.generated hv
  have hyields := (List.append_inj' (hu'.tokens_eq.trans hv'.tokens_eq.symm) hlength).1
  have hinitial := Snapshot.Invariant.initial g gen.automaton tokens
  have hsizes := h.sizes_eq hvalid hproductive hv'.path hv'.fits hu'.fits hsymbols hyields
  rw [hu.sizes_eq h.canonical h.generated hinitial, hv.sizes_eq h.canonical h.generated hinitial]
    at hsizes
  omega

/-- The symbols on the stacks of a run are finitely many strings. -/
theorem Describes.finite_symbols (h : gen.Describes g mode) (hvalid : gen.isValid = true)
    (hproductive : g.Productive) (tokens : List Symbol) :
    {γ | ∃ n u, Snapshot.Steps g gen.table n (.initial tokens) u ∧
      Frame.symbols u.frames = γ}.Finite := by
  refine (g.finite_strings ((tokens.length + 1) * (gen.automaton.states.size + 1))).subset ?_
  intro γ ⟨n, u, hu, hγ⟩
  have hinv := Snapshot.Invariant.of_steps h.canonical h.generated hu
  rw [← hγ]
  constructor
  · rw [Frame.length_symbols]
    exact h.length_le hvalid hproductive hinv
  · intro s hs
    obtain ⟨tree, htree, rfl⟩ := List.mem_map.mp hs
    obtain ⟨f, hf, rfl⟩ := Frame.mem_trees.mp htree
    exact (hinv.fits f hf).hasSymbol

/-- A run makes finitely many moves, since the snapshots after two numbers of moves differ in the
symbols of the stack or in the number of tokens left. -/
theorem Describes.finite_moves (h : gen.Describes g mode) (hvalid : gen.isValid = true)
    (hproductive : g.Productive) (tokens : List Symbol) :
    {n | ∃ u, Snapshot.Steps g gen.table n (.initial tokens) u}.Finite := by
  have : Nonempty Snapshot := ⟨.initial tokens⟩
  choose! snapshot hsteps using
    fun n (hn : ∃ u, Snapshot.Steps g gen.table n (.initial tokens) u) => hn
  have hkeys := (h.finite_symbols hvalid hproductive tokens).prod (Set.finite_le_nat tokens.length)
  refine Set.Finite.of_injOn
    (f := fun n => (Frame.symbols (snapshot n).frames, (snapshot n).input.length)) ?_ ?_ hkeys
  · intro n hn
    have hinv := Snapshot.Invariant.of_steps h.canonical h.generated (hsteps n hn)
    refine ⟨⟨n, _, hsteps n hn, rfl⟩, ?_⟩
    have hlength := congrArg List.length hinv.tokens_eq
    rw [List.length_append] at hlength
    show (snapshot n).input.length ≤ tokens.length
    omega
  · intro m hm n hn heq
    obtain ⟨hsymbols, hlength⟩ := Prod.mk.inj heq
    exact h.moves_unique hvalid hproductive (hsteps m hm) (hsteps n hn) hsymbols hlength

/-! ### The result -/

/-- A table without conflicts decides every input, if every non-terminal derives a string of
terminals: with a limit that is large enough no run is stopped by it. -/
theorem parse_decides (g : Grammar) (mode : Mode) (log : LogOptions) :
    ∃ gen text, Generation.ofGrammar g mode log = .ok (gen, text) ∧
      (g.Productive → gen.isValid = true → ∀ tokens : List Symbol,
        ∃ enough, ∀ limit, enough ≤ limit →
          ∃ r, Engine.parse g gen.table limit tokens = .ok r ∧
            ∀ failure, r.failure? = some failure → failure.kind ≠ "StepLimitExceeded") := by
  obtain ⟨gen, text, hgen, hdescribes⟩ := exists_ofGrammar g mode log
  refine ⟨gen, text, hgen, fun hproductive hvalid tokens => ?_⟩
  obtain ⟨bound, hbound⟩ := (hdescribes.finite_moves hvalid hproductive tokens).bddAbove
  refine ⟨bound + 1, fun limit hlimit => ?_⟩
  obtain ⟨r, hr, hstops⟩ := Engine.parse_stops g gen.table limit tokens
  refine ⟨r, hr, fun failure hfailure => ?_⟩
  have ho := ParseResult.failure?_eq_some.mp hfailure
  cases hstops with
  | limit hc hlength =>
      obtain ⟨s, hsteps, -⟩ := hc.exists_tracks
      have hle := hbound ⟨s, hsteps⟩
      omega
  | ended hc _ hturn => exact (hc.ofTurn (ho ▸ hturn)).kind_ne

theorem Brackets.productive : Brackets.grammar.Productive := by
  have hempty : Brackets.grammar.Derives ["S"] [] := .of_rule (p := ⟨"S", []⟩) (by decide)
  have hgoal : Brackets.grammar.Derives [Symbol.goal] ["S"] :=
    .of_rule (p := ⟨Symbol.goal, ["S"]⟩) (by decide)
  intro s hs
  have hcases : s = Symbol.goal ∨ s = "S" := by
    obtain ⟨p, hp, rfl⟩ := Grammar.isNonTerminal_iff.mp hs
    revert p
    decide
  rcases hcases with rfl | rfl
  · exact ⟨[], by simp, hgoal.trans hempty⟩
  · exact ⟨[], by simp, hempty⟩

/-- A bracket that closes nothing. -/
theorem parse_decides_brackets :
    ∃ gen text, Generation.ofGrammar Brackets.grammar .slr1 .none = .ok (gen, text) ∧
      gen.isValid = true ∧ ∃ enough, ∀ limit, enough ≤ limit →
        ∃ r, Engine.parse Brackets.grammar gen.table limit ["(", ")", ")", Symbol.endMark] =
          .ok r ∧ ∀ failure, r.failure? = some failure → failure.kind ≠ "StepLimitExceeded" := by
  obtain ⟨gen, text, hgen, h⟩ := parse_decides Brackets.grammar .slr1 .none
  have hvalid := Brackets.isValid hgen
  exact ⟨gen, text, hgen, hvalid, h Brackets.productive hvalid _⟩

end Generation

end ShiftReduce
