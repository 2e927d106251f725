import ShiftReduce.Proofs.Lookahead

/-!
# ShiftReduce.Proofs.Lookahead.Exact

**Vanishing symbols, FIRST and FOLLOW are what derivations say they are.** The rounds miss nothing,
because they end with closed families (`ShiftReduce.Proofs.Lookahead`). This module adds that they
find nothing too much, and puts the two halves together:

* `Grammar.mem_vanishing`: the vanishing symbols are those that derive the empty string;
* `Grammar.mem_firstOfSequence`: FIRST of a string is what the strings that it derives begin with
  (`Grammar.Begins`);
* `Grammar.mem_followSets`: FOLLOW of a non-terminal is what can come right after it
  (`Grammar.Follows`), and `Grammar.follows_iff` reads that off the derivations.

That nothing too much is found is an invariant of the rounds: a derivation for a new member is put
together from the derivations of the members that it was computed from. To see that FOLLOW misses
nothing, a string that a non-terminal derives is treated like one of its right-hand sides
(`Grammar.FollowClosed.rule_of_derives`).
-/

namespace ShiftReduce

namespace Grammar

open SymbolSets

variable {g : Grammar}

/-! ### Vanishing symbols -/

/-- One production of a round: its left-hand side vanishes if its right-hand side does. -/
def vanishStep (vanishing : SymbolSet) (p : Production) : SymbolSet :=
  if p.rhs.all vanishing.contains then vanishing.insert p.lhs else vanishing

theorem mem_vanishStep {vanishing : SymbolSet} {p : Production} {s : Symbol} :
    s ∈ vanishStep vanishing p ↔
      s ∈ vanishing ∨ s = p.lhs ∧ ∀ x ∈ p.rhs, x ∈ vanishing := by
  have hall : p.rhs.all vanishing.contains = true ↔ ∀ x ∈ p.rhs, x ∈ vanishing := by simp
  rw [vanishStep]
  split
  · rename_i h
    rw [Std.ExtTreeSet.mem_insert, Std.LawfulEqCmp.compare_eq_iff_eq]
    have hrhs := hall.mp h
    exact ⟨fun hs => hs.symm.imp_right fun heq => ⟨heq.symm, hrhs⟩,
      fun hs => hs.symm.imp_left fun heq => heq.1.symm⟩
  · rename_i h
    exact ⟨Or.inl, fun hs => hs.resolve_right fun hnew => h (hall.mpr hnew.2)⟩

/-- How many non-terminals the set holds. -/
def vanishCount (g : Grammar) (vanishing : SymbolSet) : Nat :=
  (g.nonTerminals.toList.toFinset.filter (· ∈ vanishing)).card

theorem vanishCount_le (vanishing : SymbolSet) : g.vanishCount vanishing ≤ g.nonTerminals.size :=
  (Finset.card_filter_le _ _).trans ((List.toFinset_card_le _).trans (by simp))

/-- A production adds a non-terminal, or nothing. -/
theorem vanishStep_grows {p : Production} (hp : p ∈ g.rules) (vanishing : SymbolSet) :
    Grows g.vanishCount vanishing (vanishStep vanishing p) := by
  by_cases hold : p.lhs ∈ vanishing ∨ ¬ ∀ x ∈ p.rhs, x ∈ vanishing
  · refine Or.inl (Std.ExtTreeSet.ext_mem fun s => ?_)
    rw [mem_vanishStep]
    refine ⟨fun hs => hs.elim id ?_, Or.inl⟩
    rintro ⟨rfl, hrhs⟩
    exact hold.resolve_right (not_not_intro hrhs)
  · push Not at hold
    have hlhs : p.lhs ∈ g.nonTerminals.toList.toFinset := by
      simp [mem_nonTerminals, isNonTerminal_lhs hp]
    exact Or.inr (Grows.card_filter _ (fun s _ hs => mem_vanishStep.mpr (Or.inl hs)) hlhs
      (mem_vanishStep.mpr (Or.inr ⟨rfl, hold.2⟩)) hold.1)

theorem vanishRound_grows (vanishing : SymbolSet) :
    Grows g.vanishCount vanishing (g.vanishRound vanishing) :=
  Grows.foldl (P := fun _ => True) (f := vanishStep) (fun _ _ _ h => h)
    (fun _ hp x _ => vanishStep_grows hp x) trivial

/-- The rounds end with a fixed point, wherever they start. -/
theorem saturate_vanishRound_fixed (g : Grammar) (start : SymbolSet) :
    g.vanishRound (saturate g.vanishRound g.nonTerminals.size start) =
      saturate g.vanishRound g.nonTerminals.size start :=
  step_saturate (P := fun _ => True) (fun _ h => h) (fun x _ => vanishRound_grows x)
    vanishCount_le trivial (Nat.le_add_left _ _)

/-- A fixed point has a left-hand side if it has all symbols of the right-hand side. -/
theorem lhs_mem_of_fixed {vanishing : SymbolSet} (hfix : g.vanishRound vanishing = vanishing)
    {p : Production} (hp : p ∈ g.rules) (h : ∀ x ∈ p.rhs, x ∈ vanishing) : p.lhs ∈ vanishing := by
  have hp' := Grows.foldl_fixed (P := fun _ => True) (f := vanishStep) (μ := g.vanishCount)
    (fun _ _ _ h => h) (fun p hp x _ => vanishStep_grows hp x) trivial hfix p hp
  rw [← hp']
  exact mem_vanishStep.mpr (Or.inr ⟨rfl, h⟩)

/-- Symbols that derive the empty string do so side by side. -/
theorem Derives.nil_of_forall {u : List Symbol} (h : ∀ s ∈ u, g.Derives [s] []) :
    g.Derives u [] := by
  induction u with
  | nil => exact .refl _
  | cons s u ih =>
      have hs : g.Derives [s] [] := h s (by simp)
      exact hs.append (ih fun x hx => h x (by simp [hx]))

/-- Of a string that derives the empty string, a fixed point has every symbol. -/
theorem mem_of_fixed_of_derives {vanishing : SymbolSet}
    (hfix : g.vanishRound vanishing = vanishing) {u : List Symbol} (h : g.Derives u []) :
    ∀ s ∈ u, s ∈ vanishing := by
  induction h using Relation.ReflTransGen.head_induction_on with
  | refl => simp
  | head hstep _ ih =>
      obtain ⟨before, after, hp⟩ := hstep
      intro s hs
      simp only [List.mem_append, List.mem_cons] at hs ih
      rcases hs with hs | rfl | hs
      · exact ih s (Or.inl (Or.inl hs))
      · exact lhs_mem_of_fixed hfix hp fun x hx => ih x (Or.inl (Or.inr hx))
      · exact ih s (Or.inr hs)

/-- All symbols of the set are non-terminals that derive the empty string. -/
def VanishSound (g : Grammar) (vanishing : SymbolSet) : Prop :=
  ∀ s ∈ vanishing, g.isNonTerminal s = true ∧ g.Derives [s] []

theorem VanishSound.step {vanishing : SymbolSet} (h : g.VanishSound vanishing) {p : Production}
    (hp : p ∈ g.rules) : g.VanishSound (vanishStep vanishing p) := by
  intro s hs
  rcases mem_vanishStep.mp hs with hs | ⟨rfl, hrhs⟩
  · exact h s hs
  · have hnil : g.Derives p.rhs [] := .nil_of_forall fun x hx => (h x (hrhs x hx)).2
    exact ⟨isNonTerminal_lhs hp, (Derives.of_rule hp).trans hnil⟩

theorem VanishSound.saturate {start : SymbolSet} (h : g.VanishSound start) (n : Nat) :
    g.VanishSound (ShiftReduce.saturate g.vanishRound n start) :=
  saturate_invariant (fun _ h => Grows.foldl_invariant (fun _ hp _ hx => hx.step hp) h) n h

/-- From symbols that derive the empty string, the rounds find all that do. -/
theorem mem_saturate_vanishRound {start : SymbolSet} (hstart : g.VanishSound start) {s : Symbol} :
    s ∈ ShiftReduce.saturate g.vanishRound g.nonTerminals.size start ↔ g.Derives [s] [] := by
  constructor
  · intro h
    exact (hstart.saturate _ s h).2
  · intro h
    exact mem_of_fixed_of_derives (g.saturate_vanishRound_fixed start) h s (by simp)

/-- One production of the first pass. -/
def emptyStep (vanishing : SymbolSet) (p : Production) : SymbolSet :=
  if p.rhs = [] then vanishing.insert p.lhs else vanishing

theorem mem_foldl_emptyStep {rules : List Production} {s : Symbol} : ∀ {vanishing : SymbolSet},
    s ∈ rules.foldl emptyStep vanishing ↔
      s ∈ vanishing ∨ ∃ p ∈ rules, p.lhs = s ∧ p.rhs = [] := by
  induction rules with
  | nil => simp
  | cons p rules ih =>
      intro vanishing
      rw [List.foldl_cons, ih, emptyStep]
      split
      · rename_i hp
        rw [Std.ExtTreeSet.mem_insert, Std.LawfulEqCmp.compare_eq_iff_eq]
        simp only [List.mem_cons, exists_eq_or_imp, hp, and_true]
        rw [or_left_comm, or_assoc]
      · rename_i hp
        simp [hp]

/-- The first pass finds the left-hand sides of the empty productions. -/
theorem mem_vanishStart {s : Symbol} : s ∈ g.vanishStart ↔ ⟨s, []⟩ ∈ g.rules := by
  have hstart : g.vanishStart = g.rules.foldl emptyStep ∅ := rfl
  rw [hstart, mem_foldl_emptyStep]
  constructor
  · rintro (h | ⟨⟨lhs, rhs⟩, hp, rfl, rfl⟩)
    · simp at h
    · exact hp
  · intro h
    exact Or.inr ⟨_, h, rfl, rfl⟩

theorem vanishStart_sound (g : Grammar) : g.VanishSound g.vanishStart := by
  intro s hs
  have hp := mem_vanishStart.mp hs
  exact ⟨isNonTerminal_lhs hp, .of_rule hp⟩

/-- Without empty productions a round finds nothing, so nothing is lost where none is made. -/
theorem vanishing_eq (g : Grammar) :
    g.vanishing = saturate g.vanishRound g.nonTerminals.size g.vanishStart := by
  unfold vanishing
  dsimp only
  split
  · rename_i hempty
    have hstart : g.vanishStart = ∅ := Std.ExtTreeSet.isEmpty_iff.mp hempty
    have hround : g.vanishRound ∅ = ∅ := by
      refine List.foldlRecOn (motive := (· = ∅)) g.rules vanishStep rfl fun vanishing h p hp => ?_
      subst h
      refine Std.ExtTreeSet.ext_mem fun s => ?_
      rw [mem_vanishStep]
      refine or_iff_left ?_
      rintro ⟨rfl, hrhs⟩
      have hnil : p.rhs = [] := List.eq_nil_iff_forall_not_mem.mpr fun x hx => by
        simpa using hrhs x hx
      have hmem : p.lhs ∈ g.vanishStart := mem_vanishStart.mpr (hnil ▸ hp)
      simp [hstart] at hmem
    rw [hstart, saturate_of_fixed hround]
  · rfl

theorem vanishing_sound (g : Grammar) : g.VanishSound g.vanishing := by
  rw [vanishing_eq]
  exact g.vanishStart_sound.saturate _

theorem mem_vanishing {s : Symbol} : s ∈ g.vanishing ↔ g.Derives [s] [] := by
  rw [vanishing_eq, mem_saturate_vanishRound g.vanishStart_sound]

/-- The rounds find the same if they start with no symbols. -/
theorem vanishing_eq_saturate_empty (g : Grammar) :
    g.vanishing = saturate g.vanishRound g.nonTerminals.size ∅ := by
  refine Std.ExtTreeSet.ext_mem fun s => ?_
  rw [mem_vanishing, mem_saturate_vanishRound (by simp [VanishSound])]

/-! ### FIRST -/

/-- What the strings that a string derives begin with: terminals, and the empty mark for the empty
string. -/
def Begins (g : Grammar) (u : List Symbol) (t : Symbol) : Prop :=
  (t ∈ g.terminals ∧ ∃ v, g.Derives u (t :: v)) ∨ (t = Symbol.emptyMark ∧ g.Derives u [])

namespace Begins

variable {u v : List Symbol} {t : Symbol}

theorem of_derives (hd : g.Derives u v) (h : g.Begins v t) : g.Begins u t := by
  rcases h with ⟨ht, w, hw⟩ | ⟨rfl, hnil⟩
  · exact Or.inl ⟨ht, w, hd.trans hw⟩
  · exact Or.inr ⟨rfl, hd.trans hnil⟩

/-- What a string begins with does not depend on what is added to its end. -/
theorem append_right (h : g.Begins u t) (hne : t ≠ Symbol.emptyMark) (v : List Symbol) :
    g.Begins (u ++ v) t := by
  rcases h with ⟨ht, w, hw⟩ | ⟨rfl, -⟩
  · exact Or.inl ⟨ht, w ++ v, hw.append_right v⟩
  · exact absurd rfl hne

theorem derives_cons (h : g.Begins u t) (hne : t ≠ Symbol.emptyMark) :
    t ∈ g.terminals ∧ ∃ v, g.Derives u (t :: v) :=
  h.resolve_right fun hnil => hne hnil.1

theorem derives_nil (h : g.Begins u Symbol.emptyMark) : g.Derives u [] := by
  rcases h with ⟨ht, -⟩ | ⟨-, hnil⟩
  · exact absurd ht g.emptyMark_notMem_terminals
  · exact hnil

end Begins

/-- Every member of a FIRST set begins something that the symbol derives. -/
def FirstSound (g : Grammar) (first : SymbolSets) : Prop :=
  ∀ s, ∀ t ∈ first.of s, g.Begins [s] t

theorem FirstSound.firstOfSequence {first : SymbolSets} (h : g.FirstSound first)
    {u : List Symbol} {t : Symbol} (ht : t ∈ first.firstOfSequence u) : g.Begins u t := by
  induction u with
  | nil => exact Or.inr ⟨mem_firstOfSequence_nil.mp ht, .refl _⟩
  | cons s u ih =>
      rcases mem_firstOfSequence_cons.mp ht with ⟨hs, hne⟩ | ⟨hempty, hu⟩
      · exact (h s t hs).append_right hne u
      · have hnil : g.Derives [s] [] := (h s _ hempty).derives_nil
        exact (ih hu).of_derives (hnil.append_right u)

theorem FirstSound.grow {first : SymbolSets} (h : g.FirstSound first) {p : Production}
    (hp : p ∈ g.rules) : g.FirstSound (first.grow p.lhs (first.firstOfSequence p.rhs)) := by
  intro s t ht
  rcases mem_of_grow.mp ht with hold | ⟨rfl, hnew⟩
  · exact h s t hold
  · exact (h.firstOfSequence hnew).of_derives (.of_rule hp)

theorem firstSets_sound (g : Grammar) : g.FirstSound g.firstSets := by
  have hround : ∀ first, g.FirstSound first → g.FirstSound (g.firstRound first) :=
    fun first h => Grows.foldl_invariant (P := g.FirstSound) (fun p hp x hx => hx.grow hp) h
  have hstart : g.FirstSound g.firstStart := by
    intro s t ht
    obtain ⟨hs, rfl⟩ := mem_firstStart_of.mp ht
    exact Or.inl ⟨hs, [], .refl _⟩
  exact saturate_invariant hround _ hstart

/-- FIRST of a string is what the strings that it derives begin with. -/
theorem mem_firstOfSequence {u : List Symbol} {t : Symbol} :
    t ∈ g.firstSets.firstOfSequence u ↔ g.Begins u t := by
  refine ⟨g.firstSets_sound.firstOfSequence, ?_⟩
  rintro (⟨ht, v, hd⟩ | ⟨rfl, hnil⟩)
  · exact g.firstSets_closed.terminal_mem ht hd
  · exact g.firstSets_closed.emptyMark_mem hnil

theorem mem_firstSets_of {s t : Symbol} : t ∈ g.firstSets.of s ↔ g.Begins [s] t := by
  rw [← mem_firstOfSequence, mem_firstOfSequence_cons, mem_firstOfSequence_nil]
  by_cases ht : t = Symbol.emptyMark
  · simp [ht]
  · simp [ht]

/-! ### FOLLOW -/

/-- Every member of a FOLLOW set can come right after the symbol. -/
def FollowSound (g : Grammar) (follow : SymbolSets) : Prop :=
  ∀ s, ∀ t ∈ follow.of s, g.Follows s t

/-- What a production gives to the symbols of its right-hand side can come after them. -/
theorem FollowSound.followTail {p : Production} (hp : p ∈ g.rules) {tail : List Symbol} :
    ∀ (before : List Symbol) {follow : SymbolSets}, p.rhs = before ++ tail →
      g.FollowSound follow → g.FollowSound (g.followTail g.firstSets p.lhs tail follow) := by
  induction tail with
  | nil => exact fun _ _ _ h => h
  | cons s rest ih =>
      intro before follow hrhs h
      rw [Grammar.followTail]
      refine ih (before ++ [s]) (by simp [hrhs]) ?_
      split
      · intro a t ht
        rcases mem_of_grow.mp ht with hold | ⟨rfl, hnew⟩
        · exact h a t hold
        · rcases mem_letThrough.mp hnew with ⟨hrest, hne⟩ | ⟨hempty, hlhs⟩
          · obtain ⟨hterminal, v, hd⟩ := (mem_firstOfSequence.mp hrest).derives_cons hne
            exact .inside hp hrhs hd hterminal
          · exact .inherit hp hrhs (mem_firstOfSequence.mp hempty).derives_nil (h _ t hlhs)
      · exact h

theorem followSets_sound (g : Grammar) : g.FollowSound (g.followSets g.firstSets) := by
  have hround : ∀ follow, g.FollowSound follow → g.FollowSound (g.followRound g.firstSets follow) :=
    fun follow h => Grows.foldl_invariant (P := g.FollowSound)
      (fun p hp x hx => hx.followTail hp [] rfl) h
  have hstart : g.FollowSound g.followStart := by
    intro s t ht
    obtain ⟨rfl, rfl⟩ := mem_followStart_of.mp ht
    exact .goal
  exact saturate_invariant hround _ hstart

end Grammar

/-! ### The symbols that have a set -/

namespace SymbolSets

/-- The family has a set for exactly the symbols with the property. -/
def Keyed (P : Symbol → Prop) (sets : SymbolSets) : Prop :=
  ∀ s, s ∈ sets ↔ P s

theorem Keyed.grow {P : Symbol → Prop} {sets : SymbolSets} (h : sets.Keyed P) {a : Symbol}
    (ha : P a) (members : SymbolSet) : (sets.grow a members).Keyed P := by
  intro s
  rw [mem_grow, h s]
  exact ⟨fun hs => hs.elim (· ▸ ha) id, Or.inr⟩

theorem mem_of_mem_of {sets : SymbolSets} {s t : Symbol} (h : t ∈ sets.of s) : s ∈ sets := by
  by_contra hs
  rw [of, Std.ExtTreeMap.getD_eq_fallback hs] at h
  simp at h

/-- Families with sets for the same symbols are equal if the sets are. -/
theorem ext_of {sets sets' : SymbolSets} (hkeys : ∀ s, s ∈ sets ↔ s ∈ sets')
    (hof : ∀ s t, t ∈ sets.of s ↔ t ∈ sets'.of s) : sets = sets' := by
  refine Std.ExtTreeMap.ext_getElem? fun s => ?_
  have heq : sets.of s = sets'.of s := Std.ExtTreeSet.ext_mem (hof s)
  by_cases hs : s ∈ sets
  · have hs' := (hkeys s).mp hs
    rw [of, of, Std.ExtTreeMap.getD_eq_getD_getElem?, Std.ExtTreeMap.getD_eq_getD_getElem?,
      Std.ExtTreeMap.getElem?_eq_some_getElem hs,
      Std.ExtTreeMap.getElem?_eq_some_getElem hs'] at heq
    rw [Std.ExtTreeMap.getElem?_eq_some_getElem hs, Std.ExtTreeMap.getElem?_eq_some_getElem hs']
    exact congrArg some heq
  · have hs' : s ∉ sets' := fun h => hs ((hkeys s).mpr h)
    rw [Std.ExtTreeMap.getElem?_eq_none hs, Std.ExtTreeMap.getElem?_eq_none hs']

end SymbolSets

namespace Grammar

open SymbolSets

variable {g : Grammar}

/-- Every symbol of the grammar has a FIRST set. -/
theorem firstSets_keyed (g : Grammar) :
    g.firstSets.Keyed fun s => s ∈ g.terminals ∨ g.isNonTerminal s = true := by
  have hstart : g.firstStart.Keyed fun s => s ∈ g.terminals ∨ g.isNonTerminal s = true := by
    intro s
    rw [firstStart, mem_ofSymbols]
    simp [mem_nonTerminals]
  refine saturate_invariant (fun first h => ?_) _ hstart
  exact Grows.foldl_invariant (fun p hp x hx => hx.grow (Or.inr (isNonTerminal_lhs hp)) _) h

theorem followTail_keyed {first : SymbolSets} {lhs : Symbol} {rhs : List Symbol} :
    ∀ {follow : SymbolSets}, follow.Keyed (g.isNonTerminal · = true) →
      (g.followTail first lhs rhs follow).Keyed (g.isNonTerminal · = true) := by
  induction rhs with
  | nil => exact fun h => h
  | cons s rest ih =>
      intro follow h
      rw [followTail]
      split
      · rename_i hs
        exact ih (h.grow hs _)
      · exact ih h

/-- Every non-terminal has a FOLLOW set. -/
theorem followSets_keyed (g : Grammar) :
    (g.followSets g.firstSets).Keyed (g.isNonTerminal · = true) := by
  have hstart : g.followStart.Keyed (g.isNonTerminal · = true) := by
    intro s
    rw [followStart, mem_ofSymbols]
    simp [mem_nonTerminals]
  refine saturate_invariant (fun follow h => ?_) _ hstart
  exact Grows.foldl_invariant (fun p _ x hx => followTail_keyed hx) h

/-- FOLLOW of a non-terminal is what can come right after it. -/
theorem mem_followSets {s t : Symbol} :
    t ∈ (g.followSets g.firstSets).of s ↔ g.isNonTerminal s = true ∧ g.Follows s t := by
  constructor
  · intro h
    exact ⟨(g.followSets_keyed s).mp (mem_of_mem_of h), g.followSets_sound s t h⟩
  · rintro ⟨hs, h⟩
    exact mem_followSets_of_follows hs h

/-! ### What comes next in a derivation -/

/-- An occurrence of a left-hand side can be expanded so that a symbol of the right-hand side stands
in its place, if the rest vanishes. -/
theorem Derives.expand {u before after rest γ : List Symbol} {p : Production} {s : Symbol}
    (h : g.Derives u (before ++ p.lhs :: after)) (hp : p ∈ g.rules) (hrhs : p.rhs = γ ++ s :: rest)
    (hrest : g.Derives rest []) : g.Derives u ((before ++ γ) ++ s :: after) := by
  have hrule : g.Derives [p.lhs] (γ ++ [s]) := by
    have hvanish : g.Derives (γ ++ [s] ++ rest) (γ ++ [s] ++ []) := hrest.append_left _
    refine (Derives.of_rule hp).trans ?_
    simpa [hrhs] using hvanish
  have hstep := (hrule.append_right after).append_left before
  refine h.trans ?_
  simpa using hstep

/-- What can come after a symbol stands there in some derived string, or the symbol is last in a
string that the goal symbol derives. -/
theorem Follows.exists_derives {s t : Symbol} (h : g.Follows s t) :
    (t = Symbol.endMark ∧ ∃ before, g.Derives [Symbol.goal] (before ++ [s])) ∨
      (t ∈ g.terminals ∧ ∃ b before after, g.isNonTerminal b = true ∧
        g.Derives [b] (before ++ s :: t :: after)) := by
  induction h with
  | goal => exact Or.inl ⟨rfl, [], .refl _⟩
  | @inside p before rest tail s t hp hrhs hd ht =>
      have hrule : g.Derives [p.lhs] (before ++ s :: rest) := hrhs ▸ .of_rule hp
      have hnext := hd.append_left (before ++ [s])
      refine Or.inr ⟨ht, p.lhs, before, tail, isNonTerminal_lhs hp, hrule.trans ?_⟩
      simpa using hnext
  | inherit hp hrhs hd _ ih =>
      rcases ih with ⟨rfl, before, hgoal⟩ | ⟨ht, b, before, after, hb, hderives⟩
      · exact Or.inl ⟨rfl, _, hgoal.expand hp hrhs hd⟩
      · exact Or.inr ⟨ht, b, _, after, hb, hderives.expand hp hrhs hd⟩

/-- A symbol of a string in three parts is in one of the parts. -/
theorem append_eq_split {x m y before rest : List Symbol} {s : Symbol}
    (h : x ++ m ++ y = before ++ s :: rest) :
    (∃ x', x = before ++ s :: x' ∧ rest = x' ++ (m ++ y)) ∨
      (∃ m₁ m₂, m = m₁ ++ s :: m₂ ∧ rest = m₂ ++ y) ∨
      ∃ y', y = y' ++ s :: rest := by
  rw [List.append_assoc] at h
  rcases List.append_eq_append_iff.mp h with ⟨γ, -, hmiddle⟩ | ⟨γ, rfl, hleft⟩
  · rcases List.append_eq_append_iff.mp hmiddle with ⟨δ, -, hright⟩ | ⟨δ, rfl, hrest⟩
    · exact Or.inr (Or.inr ⟨δ, hright⟩)
    · rcases List.cons_eq_append_iff.mp hrest with ⟨rfl, hright⟩ | ⟨m₂, rfl, rfl⟩
      · exact Or.inr (Or.inr ⟨[], hright⟩)
      · exact Or.inr (Or.inl ⟨γ, m₂, rfl, rfl⟩)
  · rcases List.cons_eq_append_iff.mp hleft with ⟨rfl, hmiddle⟩ | ⟨x', rfl, rfl⟩
    · rcases List.append_eq_cons_iff.mp hmiddle with ⟨rfl, rfl⟩ | ⟨m₂, rfl, rfl⟩
      · exact Or.inr (Or.inr ⟨[], rfl⟩)
      · exact Or.inr (Or.inl ⟨[], m₂, rfl, rfl⟩)
    · exact Or.inl ⟨x', rfl, rfl⟩

/-- A closed family treats a string that a non-terminal derives like one of its right-hand sides. -/
theorem FollowClosed.rule_of_derives {first follow : SymbolSets} (hfirst : first.FirstClosed g)
    (h : g.FollowClosed first follow) {b : Symbol} {w : List Symbol} (hd : g.Derives [b] w) :
    ∀ before s rest, w = before ++ s :: rest → g.isNonTerminal s = true →
      ∀ t, t ∈ first.firstOfSequence rest ∧ t ≠ Symbol.emptyMark ∨
        Symbol.emptyMark ∈ first.firstOfSequence rest ∧ t ∈ follow.of b → t ∈ follow.of s := by
  induction hd with
  | refl =>
      intro before s rest hw _ t ht
      obtain ⟨-, rfl, rfl⟩ : before = [] ∧ b = s ∧ rest = [] := by
        rcases before with _ | ⟨x, _ | _⟩ <;> simp_all
      simpa [mem_firstOfSequence_nil] using ht
  | tail _ hstep ih =>
      obtain @⟨x, y, p, hp⟩ := hstep
      intro before s rest hw hs t ht
      rcases append_eq_split hw with ⟨x', rfl, rfl⟩ | ⟨m₁, m₂, hrhs, rfl⟩ | ⟨y', rfl⟩
      · -- the symbol is before the expanded one: FIRST of the rest was no smaller
        have hback : ∀ {a}, a ∈ first.firstOfSequence (x' ++ (p.rhs ++ y)) →
            a ∈ first.firstOfSequence (x' ++ p.lhs :: y) := fun {a} ha =>
          hfirst.mem_of_rewrites (.intro x' y hp) (by simpa using ha)
        refine ih before s (x' ++ p.lhs :: y) (by simp) hs t ?_
        exact ht.imp (And.imp_left hback) (And.imp_left hback)
      · -- the symbol is new: what comes after the expanded symbol comes after this one, if the
        -- rest of the right-hand side vanishes
        simp only [mem_firstOfSequence_append] at ht
        have hlhs := ih x p.lhs y rfl (isNonTerminal_lhs hp)
        refine h.rule p hp m₁ s m₂ hrhs hs t ?_
        rcases ht with ⟨hm₂ | ⟨hempty, hy⟩, hne⟩ | ⟨hm₂ | ⟨hempty, hy⟩, hb⟩
        · exact Or.inl hm₂
        · exact Or.inr ⟨hempty, hlhs t (Or.inl ⟨hy, hne⟩)⟩
        · exact absurd rfl hm₂.2
        · exact Or.inr ⟨hempty, hlhs t (Or.inr ⟨hy, hb⟩)⟩
      · exact ih (x ++ p.lhs :: y') s rest (by simp) hs t ht

/-- What can come after a non-terminal, read off the derivations. -/
theorem follows_iff {s t : Symbol} (hs : g.isNonTerminal s = true) :
    g.Follows s t ↔
      (t = Symbol.endMark ∧ ∃ before, g.Derives [Symbol.goal] (before ++ [s])) ∨
        (t ∈ g.terminals ∧ ∃ b before after, g.isNonTerminal b = true ∧
          g.Derives [b] (before ++ s :: t :: after)) := by
  refine ⟨Follows.exists_derives, fun h => g.followSets_sound s t ?_⟩
  rcases h with ⟨rfl, before, hd⟩ | ⟨ht, b, before, after, -, hd⟩
  · refine g.followSets_closed.rule_of_derives g.firstSets_closed hd before s [] rfl hs _ ?_
    exact Or.inr ⟨mem_firstOfSequence_nil.mpr rfl, g.followSets_closed.goal⟩
  · refine g.followSets_closed.rule_of_derives g.firstSets_closed hd before s _ rfl hs t ?_
    refine Or.inl ⟨g.firstSets_closed.terminal_mem ht (.refl _), ?_⟩
    rintro rfl
    exact g.emptyMark_notMem_terminals ht

end Grammar

/-! ### The results -/

namespace Lookahead

/-- The vanishing symbols and the FIRST sets are found in finitely many rounds, and they are exact:
a symbol vanishes exactly if it is a non-terminal that derives the empty string, and FIRST of a
string has exactly the terminals that begin a string derived from it, and the empty mark if that can
be the empty string. So the two ways to see that a symbol vanishes agree. The rounds for the
vanishing symbols may start with those of the empty productions, or with none. -/
theorem vanishing_first_exact (g : Grammar) :
    Rounds g.vanishRound ∅ (ofGrammar g).vanishing ∧
      Rounds g.vanishRound g.vanishStart (ofGrammar g).vanishing ∧
      Rounds g.firstRound g.firstStart (ofGrammar g).first ∧
      (∀ s : Symbol, s ∈ (ofGrammar g).vanishing ↔
        g.isNonTerminal s = true ∧ g.Derives [s] []) ∧
      (∀ (u : List Symbol) (t : Symbol), t ∈ (ofGrammar g).first.firstOfSequence u ↔
        (t ∈ g.terminals ∧ ∃ v, g.Derives u (t :: v)) ∨
          (t = Symbol.emptyMark ∧ g.Derives u [])) ∧
      (∀ s t : Symbol, t ∈ (ofGrammar g).first.of s ↔
        (t ∈ g.terminals ∧ ∃ v, g.Derives [s] (t :: v)) ∨
          (t = Symbol.emptyMark ∧ g.Derives [s] [])) ∧
      ∀ s : Symbol, s ∈ (ofGrammar g).vanishing ↔
        Symbol.emptyMark ∈ (ofGrammar g).first.of s := by
  have hvanishing : (ofGrammar g).vanishing = g.vanishing := rfl
  refine ⟨?_, ?_, rounds_saturate g.firstSets_fixed.1, fun s => ?_,
    fun u t => Grammar.mem_firstOfSequence, fun s t => Grammar.mem_firstSets_of, fun s => ?_⟩
  · rw [hvanishing, g.vanishing_eq_saturate_empty]
    exact rounds_saturate (g.saturate_vanishRound_fixed ∅)
  · rw [hvanishing, g.vanishing_eq]
    exact rounds_saturate (g.saturate_vanishRound_fixed g.vanishStart)
  · exact ⟨g.vanishing_sound s, fun h => Grammar.mem_vanishing.mpr h.2⟩
  · have hempty : g.Begins [s] Symbol.emptyMark ↔ g.Derives [s] [] :=
      ⟨Grammar.Begins.derives_nil, fun h => Or.inr ⟨rfl, h⟩⟩
    exact Grammar.mem_vanishing.trans (hempty.symm.trans Grammar.mem_firstSets_of.symm)

/-- The FOLLOW sets are found in finitely many rounds, and they are exact: the end mark follows a
non-terminal that can be last in a string derived from the goal symbol, a terminal follows a
non-terminal that it can come right after in a string derived from some non-terminal, and nothing
else follows anything. -/
theorem follow_exact (g : Grammar) :
    Rounds (g.followRound (ofGrammar g).first) g.followStart (ofGrammar g).follow ∧
      (∀ s : Symbol, Symbol.endMark ∈ (ofGrammar g).follow.of s ↔
        g.isNonTerminal s = true ∧ ∃ before, g.Derives [Symbol.goal] (before ++ [s])) ∧
      (∀ s : Symbol, ∀ t ∈ g.terminals, t ∈ (ofGrammar g).follow.of s ↔
        g.isNonTerminal s = true ∧ ∃ b before after, g.isNonTerminal b = true ∧
          g.Derives [b] (before ++ s :: t :: after)) ∧
      ∀ s : Symbol, ∀ t ∈ (ofGrammar g).follow.of s,
        (t = Symbol.endMark ∨ t ∈ g.terminals) ∧ t ≠ Symbol.emptyMark ∧
          g.isNonTerminal t = false := by
  have hmem : ∀ {s t : Symbol}, t ∈ (ofGrammar g).follow.of s ↔ g.isNonTerminal s = true ∧
      ((t = Symbol.endMark ∧ ∃ before, g.Derives [Symbol.goal] (before ++ [s])) ∨
        (t ∈ g.terminals ∧ ∃ b before after, g.isNonTerminal b = true ∧
          g.Derives [b] (before ++ s :: t :: after))) :=
    fun {s t} => Grammar.mem_followSets.trans (and_congr_right Grammar.follows_iff)
  refine ⟨rounds_saturate g.followSets_fixed.1, fun s => ?_, fun s t ht => ?_, fun s t h => ?_⟩
  · simp [hmem, g.endMark_notMem_terminals]
  · have hne : t ≠ Symbol.endMark := fun heq => g.endMark_notMem_terminals (heq ▸ ht)
    simp [hmem, ht, hne]
  · rcases (hmem.mp h).2 with ⟨rfl, -⟩ | ⟨ht, -⟩
    · exact ⟨Or.inl rfl, by decide, g.isNonTerminal_endMark⟩
    · refine ⟨Or.inr ht, ?_, (Grammar.mem_terminals.mp ht).1⟩
      rintro rfl
      exact g.emptyMark_notMem_terminals ht

/-- The productions `S -> A`, `A ->` and `B -> A b`, the last of which is never reached. -/
def detached : Grammar :=
  ⟨[⟨"S", ["A"]⟩, ⟨"A", []⟩, ⟨"B", ["A", "b"]⟩], by simp, by decide⟩

/-- FOLLOW counts what comes after a symbol in a production that is never reached. -/
theorem follow_exact_detached :
    ("b" : Symbol) ∈ detached.terminals ∧ ("b" : Symbol) ∈ (ofGrammar detached).follow.of "A" ∧
      Symbol.endMark ∈ (ofGrammar detached).follow.of "A" := by
  obtain ⟨-, hend, hterminal, -⟩ := follow_exact detached
  have hnon : detached.isNonTerminal "A" = true := by decide +kernel
  have hb : ("b" : Symbol) ∈ detached.terminals := by decide +kernel
  have hgoal : detached.Derives [Symbol.goal] ["S"] :=
    .of_rule (p := detached.goalRule) (by simp [Grammar.rules])
  have hS : detached.Derives ["S"] ["A"] :=
    .of_rule (p := ⟨"S", ["A"]⟩) (by simp [Grammar.rules, detached])
  have hB : detached.Derives ["B"] ["A", "b"] :=
    .of_rule (p := ⟨"B", ["A", "b"]⟩) (by simp [Grammar.rules, detached])
  exact ⟨hb, (hterminal "A" "b" hb).mpr ⟨hnon, "B", [], [], by decide +kernel, hB⟩,
    (hend "A").mpr ⟨hnon, [], hgoal.trans hS⟩⟩

end Lookahead

end ShiftReduce
