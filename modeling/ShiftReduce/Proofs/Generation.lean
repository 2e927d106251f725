import ShiftReduce.Generation
import ShiftReduce.Proofs.Lookahead
import ShiftReduce.Proofs.Table.Generated

/-!
# ShiftReduce.Proofs.Generation

**Generating succeeds for every grammar**, in both modes and with every choice of logs, and
`Generation.Describes` collects what is known of the result: the automaton is the whole collection
of item sets, and the table was filled from it with the lookaheads of the mode.

The two modes differ in `Grammar.reduceOn` alone. Both allow a reduction on every symbol that can
follow its left-hand side (`Grammar.mem_reduceOn_of_follows`), which is all that a run on a sentence
asks for.
-/

namespace ShiftReduce

namespace Grammar

/-- The lookaheads on which a production is reduced: every column, or FOLLOW of its left-hand
side. -/
def reduceOn (g : Grammar) : Mode → Production → List Symbol
  | .lr0, _ => g.actionColumns
  | .slr1, p => ((g.followSets g.firstSets).of p.lhs).toList

theorem mem_reduceOn_of_follows {g : Grammar} (mode : Mode) {p : Production} (hp : p ∈ g.rules)
    {s : Symbol} (h : g.Follows p.lhs s) : s ∈ g.reduceOn mode p := by
  cases mode with
  | lr0 => exact mem_actionColumns.mpr h.terminal_or_endMark
  | slr1 =>
      exact Std.ExtTreeSet.mem_toList.mpr (mem_followSets_of_follows (isNonTerminal_lhs hp) h)

end Grammar

theorem Table.reductionLookaheads_eq (g : Grammar) (mode : Mode) :
    reductionLookaheads g mode (if mode = .slr1 then some (Lookahead.ofGrammar g) else none) =
      .ok (g.reduceOn mode) := by
  cases mode <;> rfl

/-! ### Logs -/

theorem exists_mapM_eq_ok {α β : Type} {f : α → Except Missing β} {l : List α}
    (h : ∀ x ∈ l, ∃ y, f x = .ok y) : ∃ ys, l.mapM f = .ok ys := by
  induction l with
  | nil => exact ⟨[], rfl⟩
  | cons x l ih =>
      obtain ⟨y, hy⟩ := h x (by simp)
      obtain ⟨ys, hys⟩ := ih fun z hz => h z (by simp [hz])
      exact ⟨y :: ys, by rw [List.mapM_cons, hy, ok_bind, hys]; rfl⟩

/-- An index that lists the states can be written out. -/
theorem StateIndex.Lists.listing_eq_ok {index : StateIndex} {states : Array ItemSet}
    (h : index.Lists states) : ∃ text, index.listing states = .ok text := by
  have hline : ∀ q ∈ index.buckets.toList, ∃ text, bucketLine states q.1 q.2 = .ok text := by
    rintro ⟨number, listed⟩ hq
    have hbucket : index.bucket number = listed := by
      rw [bucket, Std.ExtTreeMap.getD_eq_getD_getElem?,
        Std.ExtTreeMap.mem_toList_iff_getElem?_eq_some.mp hq]
      rfl
    obtain ⟨entries, hentries⟩ : ∃ entries, listed.mapM (entryText states) = .ok entries := by
      refine exists_mapM_eq_ok fun n hn => ?_
      obtain ⟨items, hitems⟩ := h.lt_size (hbucket ▸ hn)
      exact ⟨_, by rw [entryText, hitems]⟩
    exact ⟨_, by rw [bucketLine, hentries]; rfl⟩
  obtain ⟨lines, hlines⟩ := exists_mapM_eq_ok hline
  exact ⟨_, by rw [listing, hlines]; rfl⟩

theorem Generation.constructionLog_eq_ok (log : LogOptions) {c : Construction}
    (h : c.index.Lists c.automaton.states) : ∃ text, constructionLog log c = .ok text := by
  obtain ⟨text, htext⟩ := h.listing_eq_ok
  rw [constructionLog]
  cases log.stateIndex with
  | true => exact ⟨_, by rw [if_pos rfl, htext]; rfl⟩
  | false => exact ⟨_, rfl⟩

/-! ### The result -/

/-- The generation is the one of a grammar in a mode. -/
structure Generation.Describes (gen : Generation) (g : Grammar) (mode : Mode) : Prop where
  grammar_eq : gen.grammar = g
  mode_eq : gen.mode = mode
  /-- Its automaton is the whole collection of item sets. -/
  canonical : gen.automaton.Canonical g
  /-- Its table was filled from the automaton. -/
  generated : gen.table.Generated g gen.automaton (g.reduceOn mode)

/-- Every grammar has a generation, whether or not its table has conflicts. -/
theorem Generation.exists_ofGrammar (g : Grammar) (mode : Mode) (log : LogOptions) :
    ∃ gen text, Generation.ofGrammar g mode log = .ok (gen, text) ∧ gen.Describes g mode := by
  obtain ⟨c, hc, hcanonical, hlists⟩ := Construction.ofGrammar_canonical g
  obtain ⟨constructed, hlog⟩ := constructionLog_eq_ok log hlists
  obtain ⟨t, ht, -, hgenerated⟩ :=
    Table.build_generated hcanonical (Table.reductionLookaheads_eq g mode)
  have hgen : ∃ text, Generation.ofGrammar g mode log = .ok (⟨mode, g, c.automaton, t,
      if mode = .slr1 then some (Lookahead.ofGrammar g) else none⟩, text) :=
    ⟨_, by simp only [Generation.ofGrammar, hc, ok_bind, hlog, ht]; rfl⟩
  obtain ⟨text, htext⟩ := hgen
  exact ⟨_, text, htext, ⟨rfl, rfl, hcanonical, hgenerated⟩⟩

/-- A generation that succeeded describes its grammar. -/
theorem Generation.describes_of_ofGrammar {g : Grammar} {mode : Mode} {log : LogOptions}
    {gen : Generation} {text : Text} (h : Generation.ofGrammar g mode log = .ok (gen, text)) :
    gen.Describes g mode := by
  obtain ⟨gen', text', h', hdescribes⟩ := exists_ofGrammar g mode log
  cases h.symm.trans h'
  exact hdescribes

/-- A generation has the automaton of its grammar, and the table filled from it. -/
theorem Generation.ofGrammar_inv {g : Grammar} {mode : Mode} {log : LogOptions} {gen : Generation}
    {text : Text} (h : Generation.ofGrammar g mode log = .ok (gen, text)) :
    Automaton.ofGrammar g = .ok gen.automaton ∧
      Table.build g gen.automaton mode
        (if mode = .slr1 then some (Lookahead.ofGrammar g) else none) = .ok gen.table := by
  rw [Generation.ofGrammar] at h
  obtain ⟨c, hc, h⟩ := bind_eq_ok.mp h
  obtain ⟨constructed, -, h⟩ := bind_eq_ok.mp h
  obtain ⟨t, ht, h⟩ := bind_eq_ok.mp h
  cases h
  exact ⟨Construction.automaton_eq_ok hc, ht⟩

end ShiftReduce
