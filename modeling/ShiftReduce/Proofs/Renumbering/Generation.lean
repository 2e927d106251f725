import ShiftReduce.Proofs.Automaton.Collection
import ShiftReduce.Proofs.Renumbering
import ShiftReduce.Proofs.Table.Content

/-!
# ShiftReduce.Proofs.Renumbering.Generation

**The automaton and the number of conflicts do not depend on the order of the productions.** The
two constructions for a grammar and its renumbering are walked side by side. `Construction.Mirrors`
says that the states of the one are the renumbered states of the other, under the same numbers, and
that the transitions are equal. A set of items is new to the one construction exactly if the
renumbered set is new to the other, so both enter it under the same number (`Mirrors.enter`),
although they look in different buckets. Connections, visits and walks follow (`Mirrors.connect`,
`Mirrors.visit`, `Mirrors.walk`).

Which of two clashing actions came first does depend on the numbers, and so do the reduction that
stays in a cell and the kinds of its conflicts. How many conflicts it has does not: its candidates
are the renumbered candidates of the other cell (`Table.Candidate.renumber`).
-/

namespace ShiftReduce

/-! ### Two constructions side by side -/

namespace Construction

/-- Items that are entered are those of a known state, or of no state and then of a new last one. -/
theorem Sound.enter_inv {g : Grammar} {c d : Construction} (h : Sound g c) {items : ItemSet}
    {n : Nat} (henter : c.enter items = .ok (n, d)) :
    (c.automaton.states[n]? = some items ∧ d.automaton = c.automaton) ∨
    ((∀ m : Nat, c.automaton.states[m]? ≠ some items) ∧ n = c.automaton.states.size ∧
      d.automaton = ⟨c.automaton.states.push items, c.automaton.transitions⟩) := by
  rw [Construction.enter] at henter
  rcases StateIndex.search_cases h.listed items with
    ⟨m, hm, hsearch⟩ | ⟨hnew, index, -, hsearch⟩
  · rw [hsearch] at henter
    cases henter
    exact Or.inl ⟨hm, rfl⟩
  · rw [hsearch] at henter
    cases henter
    exact Or.inr ⟨hnew, rfl, rfl⟩

theorem Sound.of_enter {g : Grammar} {c d : Construction} (h : Sound g c) {items : ItemSet}
    {n : Nat} (hitems : ∀ i ∈ items, g.IsItem i) (henter : c.enter items = .ok (n, d)) :
    Sound g d := by
  obtain ⟨m, c', henter', hsound, -⟩ := h.enter hitems
  cases henter.symm.trans henter'
  exact hsound

/-- Only the index and the states count. -/
theorem Sound.congr {g : Grammar} {c d : Construction} (h : Sound g c) (hindex : d.index = c.index)
    (hstates : d.automaton.states = c.automaton.states) : Sound g d where
  listed := hindex ▸ hstates ▸ h.listed
  distinct := hstates ▸ h.distinct
  proper := hstates ▸ h.proper

/-- The second construction has the renumbered states of the first, and the same transitions. -/
structure Mirrors (p : Equiv.Perm Nat) (g g' : Grammar) (c c' : Construction) : Prop where
  sound : Sound g c
  sound' : Sound g' c'
  states : c'.automaton.states = c.automaton.states.map (ItemSet.renumber p)
  transitions : c'.automaton.transitions = c.automaton.transitions

variable {p : Equiv.Perm Nat} {g g' : Grammar} {c c' d d' : Construction}

/-- The states with the renumbered items have the numbers of the states with the items. -/
theorem Mirrors.state_iff (h : Mirrors p g g' c c') {n : Nat} {items : ItemSet} :
    c'.automaton.states[n]? = some (items.renumber p) ↔ c.automaton.states[n]? = some items := by
  rw [h.states, Array.getElem?_map, Option.map_eq_some_iff]
  constructor
  · rintro ⟨known, hknown, heq⟩
    exact ItemSet.renumber_injective p heq ▸ hknown
  · exact fun hn => ⟨items, hn, rfl⟩

theorem Mirrors.enter (h : Mirrors p g g' c c') {items : ItemSet} {n n' : Nat}
    (hitems : ∀ i ∈ items, g.IsItem i) (hitems' : ∀ i ∈ items.renumber p, g'.IsItem i)
    (henter : c.enter items = .ok (n, d)) (henter' : c'.enter (items.renumber p) = .ok (n', d')) :
    n' = n ∧ Mirrors p g g' d d' := by
  have hsound := h.sound.of_enter hitems henter
  have hsound' := h.sound'.of_enter hitems' henter'
  rcases h.sound.enter_inv henter with ⟨hn, hd⟩ | ⟨hnew, rfl, hd⟩ <;>
    rcases h.sound'.enter_inv henter' with ⟨hn', hd'⟩ | ⟨hnew', rfl, hd'⟩
  · -- both know the items
    refine ⟨h.sound.distinct (h.state_iff.mp hn') hn, hsound, hsound', ?_, ?_⟩
    · rw [hd, hd', h.states]
    · rw [hd, hd', h.transitions]
  · exact absurd (h.state_iff.mpr hn) (hnew' n)
  · exact absurd (h.state_iff.mp hn') (hnew n')
  · -- both enter them last
    refine ⟨by rw [h.states, Array.size_map], hsound, hsound', ?_, ?_⟩
    · rw [hd, hd', h.states, Array.map_push]
    · rw [hd, hd', h.transitions]

theorem Mirrors.connect (h : Mirrors p g g' c c') (hp : g.Renumbers p g') {m : Nat} {s : Symbol}
    {items : ItemSet} (hd : c.connect m s (g.goto items s) = .ok d)
    (hd' : c'.connect m s (g'.goto (items.renumber p) s) = .ok d') : Mirrors p g g' d d' := by
  rw [Construction.connect] at hd hd'
  obtain ⟨⟨n, c₁⟩, henter, hd⟩ := bind_eq_ok.mp hd
  obtain ⟨⟨n', c₁'⟩, henter', hd'⟩ := bind_eq_ok.mp hd'
  rw [hp.goto_eq] at henter'
  obtain ⟨rfl, h₁⟩ := h.enter (@Grammar.isItem_goto g items s)
    (hp.goto_eq items s ▸ @Grammar.isItem_goto g' (items.renumber p) s) henter henter'
  cases hd
  cases hd'
  exact ⟨h₁.sound.congr rfl rfl, h₁.sound'.congr rfl rfl, h₁.states, by rw [h₁.transitions]⟩

/-- The same symbols are followed in the same order. -/
theorem Mirrors.visit (h : Mirrors p g g' c c') (hp : g.Renumbers p g') {n : Nat} {items : ItemSet}
    (hd : Construction.visit g c n items = .ok d)
    (hd' : Construction.visit g' c' n (items.renumber p) = .ok d') : Mirrors p g g' d d' := by
  rw [Construction.visit] at hd
  rw [Construction.visit, hp.scannedSymbols_eq] at hd'
  have hstart : Mirrors p g g'
      { c with progress := c.progress.push c.automaton.states.size }
      { c' with progress := c'.progress.push c'.automaton.states.size } :=
    ⟨h.sound.congr rfl rfl, h.sound'.congr rfl rfl, h.states, h.transitions⟩
  exact foldlM_related (fun h₁ hstep hstep' => h₁.connect hp hstep hstep') hstart hd hd'

/-- Walks from mirrored constructions end in mirrored constructions. -/
theorem Mirrors.walk (hp : g.Renumbers p g') {n : Nat} (hwalk : Walk g n c d) :
    ∀ {c' d' : Construction}, Mirrors p g g' c c' → Walk g' n c' d' → Mirrors p g g' d d' := by
  induction hwalk with
  | @done n c hn =>
      intro c' d' h hwalk'
      cases hwalk' with
      | done => exact h
      | visit hn' => simp [h.states, hn] at hn'
  | @visit n c c₁ d items hn hvisit _ ih =>
      intro c' d' h hwalk'
      have hn' := h.state_iff.mpr hn
      cases hwalk' with
      | done hnone => simp [hn'] at hnone
      | visit hknown hvisit' rest' =>
          cases hn'.symm.trans hknown
          exact ih (h.visit hp hvisit hvisit') rest'

end Construction

namespace Grammar.Renumbers

variable {p : Equiv.Perm Nat} {g g' : Grammar}

theorem initialItems_eq (h : Renumbers p g g') :
    Construction.initialItems g' = (Construction.initialItems g).renumber p := by
  have hgoal : ItemSet.renumber p {⟨0, 0⟩} = {⟨0, 0⟩} := by
    refine Std.ExtTreeSet.ext_mem fun i => ?_
    rw [ItemSet.mem_renumber]
    simp [Item.renumber, h.goal]
  rw [Construction.initialItems, Construction.initialItems, ← h.closure_eq, hgoal]

/-- The automata have the same states up to the numbers of the productions, in the same order, and
the same transitions. -/
theorem automaton_eq (h : Renumbers p g g') {a a' : Automaton}
    (ha : Automaton.ofGrammar g = .ok a) (ha' : Automaton.ofGrammar g' = .ok a') :
    a'.states = a.states.map (ItemSet.renumber p) ∧ a'.transitions = a.transitions := by
  obtain ⟨first, c, henter, -, hwalk, hc, -⟩ := Construction.ofGrammar_walk g
  obtain ⟨first', c', henter', -, hwalk', hc', -⟩ := Construction.ofGrammar_walk g'
  obtain rfl := Except.ok.inj ((Construction.automaton_eq_ok hc).symm.trans ha)
  obtain rfl := Except.ok.inj ((Construction.automaton_eq_ok hc').symm.trans ha')
  have hempty : Construction.Mirrors p g g' .empty .empty :=
    ⟨Construction.sound_empty g, Construction.sound_empty g',
      by simp [Construction.empty, Automaton.empty], rfl⟩
  have hitems' := Construction.isItem_initialItems g'
  rw [h.initialItems_eq] at henter' hitems'
  have hfirst := (hempty.enter (Construction.isItem_initialItems g) hitems' henter henter').2
  have hend := Construction.Mirrors.walk h hwalk hfirst hwalk'
  exact ⟨hend.states, hend.transitions⟩

/-! ### Actions with other numbers -/

theorem reduceOn_eq (h : Renumbers p g g') (mode : Mode) (q : Production) :
    g'.reduceOn mode q = g.reduceOn mode q := by
  cases mode with
  | lr0 => rw [reduceOn, reduceOn, actionColumns, actionColumns, h.terminals_eq]
  | slr1 => rw [reduceOn, reduceOn, h.followSets_eq]

/-- Only the goal production has number 0. -/
theorem one_le (h : Renumbers p g g') {r : Nat} (hr : 1 ≤ r) : 1 ≤ p r := by
  have hne : p r ≠ 0 := fun hzero => Nat.ne_of_gt hr (p.injective (hzero.trans h.goal.symm))
  exact Nat.pos_of_ne_zero hne

end Grammar.Renumbers

/-- The action with the new number of its production. -/
def Action.renumber (p : Equiv.Perm Nat) : Action → Action
  | .reduce r => .reduce (p r)
  | action => action

theorem Action.renumber_injective (p : Equiv.Perm Nat) : Function.Injective (renumber p) := by
  intro x y h
  cases x <;> cases y <;> simp_all [renumber]

/-- Renumbered items call for the renumbered actions. -/
theorem Table.Candidate.renumber {p : Equiv.Perm Nat} {g g' : Grammar} (hp : g.Renumbers p g')
    {a a' : Automaton} (ha : a'.transitions = a.transitions) {mode : Mode} {n : Nat}
    {items : ItemSet} {s : Symbol} {action : Action}
    (h : Candidate g a (g.reduceOn mode) n items s action) :
    Candidate g' a' (g'.reduceOn mode) n (items.renumber p) s (action.renumber p) := by
  cases h with
  | accept hi =>
      have hgoal : (⟨0, 1⟩ : Item).renumber p = ⟨0, 1⟩ := by rw [Item.renumber, hp.goal]
      exact .accept (hgoal ▸ ItemSet.renumber_mem_renumber.mpr hi)
  | @shift i s m hi hs ht hm =>
      have hm' : a'.target? n s = some m := by rwa [Automaton.target?, ha]
      exact .shift (ItemSet.renumber_mem_renumber.mpr hi) ((hp.scanned?_renumber i).trans hs)
        (hp.terminals_eq ▸ ht) hm'
  | @reduce r q s hr hq hi hs =>
      exact .reduce (hp.one_le hr) ((hp.rule r).trans hq) (ItemSet.renumber_mem_renumber.mpr hi)
        (hp.reduceOn_eq mode q ▸ hs)

/-! ### Generations -/

namespace Generation

variable {p : Equiv.Perm Nat} {g g' : Grammar} {mode : Mode} {log log' : LogOptions}
  {gen gen' : Generation} {text text' : Text}

/-- A cell has no more conflicts than the cell of the renumbered grammar. -/
theorem conflictCount_le_of_renumbers (hp : g.Renumbers p g')
    (h : Generation.ofGrammar g mode log = .ok (gen, text))
    (h' : Generation.ofGrammar g' mode log' = .ok (gen', text')) (n : Nat) (s : Symbol) :
    gen.table.conflictCount n s ≤ gen'.table.conflictCount n s := by
  obtain ⟨hstates, htransitions⟩ := hp.automaton_eq (ofGrammar_inv h).1 (ofGrammar_inv h').1
  refine conflictCount_le_of_candidate h h' (Action.renumber_injective p)
    fun {items action} hn hcandidate => ⟨items.renumber p, ?_, hcandidate.renumber hp htransitions⟩
  rw [hstates, Array.getElem?_map, hn, Option.map_some]

theorem conflictCount_eq_of_renumbers (hp : g.Renumbers p g')
    (h : Generation.ofGrammar g mode log = .ok (gen, text))
    (h' : Generation.ofGrammar g' mode log' = .ok (gen', text')) (n : Nat) (s : Symbol) :
    gen'.table.conflictCount n s = gen.table.conflictCount n s :=
  Nat.le_antisymm (conflictCount_le_of_renumbers hp.symm h' h n s)
    (conflictCount_le_of_renumbers hp h h' n s)

theorem isValid_eq_of_renumbers (hp : g.Renumbers p g')
    (h : Generation.ofGrammar g mode log = .ok (gen, text))
    (h' : Generation.ofGrammar g' mode log' = .ok (gen', text')) : gen'.isValid = gen.isValid := by
  rw [Bool.eq_iff_iff, isValid_iff_conflictCount, isValid_iff_conflictCount]
  simp only [conflictCount_eq_of_renumbers hp h h']

/-- The order in which productions are declared does not matter, as long as the start symbol is the
same. The reordered list is accepted, and its grammar is a renumbering of the first. It has the same
lookahead sets. With every such renumbering, the states of the automaton are the renumbered states
under the same numbers, and the transitions are the same. In both modes the states to go to are the
same, every cell has as many conflicts as before, and the table is valid exactly if it was. -/
theorem declaration_order_irrelevant {rules rules' : List Production} {g : Grammar}
    (h : Grammar.ofRules rules = .ok g) (hperm : rules.Perm rules')
    (hhead : rules'.head?.map (·.lhs) = rules.head?.map (·.lhs)) :
    ∃ g', Grammar.ofRules rules' = .ok g' ∧ (∃ p, g.Renumbers p g') ∧
      Lookahead.ofGrammar g' = Lookahead.ofGrammar g ∧
      ∀ p, g.Renumbers p g' → ∀ (mode : Mode) (log log' : LogOptions), ∃ gen text gen' text',
        Generation.ofGrammar g mode log = .ok (gen, text) ∧
        Generation.ofGrammar g' mode log' = .ok (gen', text') ∧
        gen'.automaton.states = gen.automaton.states.map (ItemSet.renumber p) ∧
        gen'.automaton.transitions = gen.automaton.transitions ∧
        (∀ n s, gen'.table.goto? n s = gen.table.goto? n s) ∧
        gen'.isValid = gen.isValid ∧
        ∀ n s, gen'.table.conflictCount n s = gen.table.conflictCount n s := by
  obtain ⟨g', hg', p, hp⟩ := Grammar.exists_ofRules_of_perm h hperm hhead
  refine ⟨g', hg', ⟨p, hp⟩, hp.lookahead_eq, fun p hp mode log log' => ?_⟩
  obtain ⟨gen, text, hgen, -⟩ := exists_ofGrammar g mode log
  obtain ⟨gen', text', hgen', -⟩ := exists_ofGrammar g' mode log'
  obtain ⟨hstates, htransitions⟩ := hp.automaton_eq (ofGrammar_inv hgen).1 (ofGrammar_inv hgen').1
  exact ⟨gen, text, gen', text', hgen, hgen', hstates, htransitions,
    goto?_eq_of_transitions hgen hgen' hp.isNonTerminal_eq htransitions,
    isValid_eq_of_renumbers hp hgen hgen',
    conflictCount_eq_of_renumbers hp hgen hgen'⟩

/-! ### Sums in two orders -/

namespace Sums

def sum : Production := ⟨"E", ["E", "+", "E"]⟩

def atom : Production := ⟨"E", ["x"]⟩

def grammar : Grammar := ⟨[sum, atom], by simp, by decide⟩

def reordered : Grammar := ⟨[atom, sum], by simp, by decide⟩

theorem renumbers : grammar.Renumbers (Equiv.swap 1 2) reordered where
  goal := by simp [Equiv.swap_apply_of_ne_of_ne]
  rule r := by
    match r with
    | 0 => simp [Equiv.swap_apply_of_ne_of_ne, Grammar.goalRule, Grammar.start, grammar, reordered,
        sum, atom]
    | 1 => simp [Grammar.rule?, Grammar.rules, grammar, reordered]
    | 2 => simp [Grammar.rule?, Grammar.rules, grammar, reordered]
    | r + 3 => simp [Equiv.swap_apply_of_ne_of_ne, Grammar.rule?, Grammar.rules, grammar, reordered]

/-- Sums without brackets can be read in two ways, which FOLLOW does not settle. -/
theorem not_isValid {gen : Generation} {text : Text}
    (h : Generation.ofGrammar grammar .slr1 .none = .ok (gen, text)) : gen.isValid = false := by
  have hrun : ((Generation.ofGrammar grammar .slr1 .none).toOption.map fun (gen, _) =>
      gen.isValid) = some false := by decide +kernel
  rw [h] at hrun
  exact Option.some.inj hrun

end Sums

theorem declaration_order_irrelevant_sums :
    Grammar.ofRules [Sums.sum, Sums.atom] = .ok Sums.grammar ∧
      Grammar.ofRules [Sums.atom, Sums.sum] = .ok Sums.reordered ∧
      Lookahead.ofGrammar Sums.reordered = Lookahead.ofGrammar Sums.grammar ∧
      ∃ gen text gen' text', Generation.ofGrammar Sums.grammar .slr1 .none = .ok (gen, text) ∧
        Generation.ofGrammar Sums.reordered .slr1 .none = .ok (gen', text') ∧
        gen'.automaton.states = gen.automaton.states.map (ItemSet.renumber (Equiv.swap 1 2)) ∧
        gen.isValid = false ∧ gen'.isValid = false := by
  have hgrammar : Grammar.ofRules [Sums.sum, Sums.atom] = .ok Sums.grammar :=
    Grammar.ofRules_eq_ok.mpr rfl
  have hreordered : Grammar.ofRules [Sums.atom, Sums.sum] = .ok Sums.reordered :=
    Grammar.ofRules_eq_ok.mpr rfl
  obtain ⟨g', hg', -, hlookahead, hgenerations⟩ :=
    declaration_order_irrelevant hgrammar (.swap Sums.atom Sums.sum []) rfl
  obtain rfl := Except.ok.inj (hreordered.symm.trans hg')
  obtain ⟨gen, text, gen', text', hgen, hgen', hstates, -, -, hvalid, -⟩ :=
    hgenerations _ Sums.renumbers .slr1 .none .none
  have hinvalid := Sums.not_isValid hgen
  exact ⟨hgrammar, hreordered, hlookahead, gen, text, gen', text', hgen, hgen', hstates, hinvalid,
    hvalid.trans hinvalid⟩

end Generation

end ShiftReduce
