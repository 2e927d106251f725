import Mathlib.Data.Finset.Prod
import Mathlib.Data.List.Nodup
import ShiftReduce.Lookahead
import ShiftReduce.Proofs.Derivation
import ShiftReduce.Proofs.Saturation

/-!
# ShiftReduce.Proofs.Lookahead

**FIRST and FOLLOW miss nothing.** The rounds over the productions end with families of sets that
are closed under the rules of the rounds (`Grammar.firstSets_closed`, `Grammar.followSets_closed`),
and a closed family holds whatever a derivation can bring about:

* `SymbolSets.FirstClosed.mem_of_derives`: FIRST of a string only grows when a rewriting is undone,
  so it holds what FIRST of a derived string holds;
* `Grammar.FollowClosed.mem_of_follows`: FOLLOW holds every symbol that `Grammar.Follows` says can
  come next.

A round is a fold of single additions `SymbolSets.grow`. Each adds a pair of a non-terminal and a
member or nothing at all, so the number of such pairs bounds the rounds.
-/

namespace ShiftReduce

/-! ### Families of sets -/

namespace SymbolSets

theorem mem_of_grow {sets : SymbolSets} {s t a : Symbol} {members : SymbolSet} :
    t ∈ (sets.grow a members).of s ↔ t ∈ sets.of s ∨ s = a ∧ t ∈ members := by
  rw [grow, of, Std.ExtTreeMap.getD_insert]
  by_cases h : a = s
  · subst h
    rw [if_pos (by simp)]
    simp
  · rw [if_neg (by simpa using h)]
    simp [of, Ne.symm h]

/-- A family that already has the members does not change. -/
theorem grow_eq_self {sets : SymbolSets} {a : Symbol} {members : SymbolSet} (ha : a ∈ sets)
    (h : ∀ t ∈ members, t ∈ sets.of a) : sets.grow a members = sets := by
  have hunion : sets.of a ∪ members = sets.of a := by
    refine Std.ExtTreeSet.ext_mem fun t => ?_
    rw [Std.ExtTreeSet.mem_union_iff]
    exact ⟨fun ht => ht.elim id (h t), Or.inl⟩
  refine Std.ExtTreeMap.ext_getElem? fun s => ?_
  rw [grow, hunion, Std.ExtTreeMap.getElem?_insert]
  by_cases hs : a = s
  · subst hs
    rw [if_pos (by simp), of, Std.ExtTreeMap.getD_eq_getD_getElem?,
      Std.ExtTreeMap.getElem?_eq_some_getElem ha]
    rfl
  · rw [if_neg (by simpa using hs)]

theorem mem_grow {sets : SymbolSets} {s a : Symbol} {members : SymbolSet} :
    s ∈ sets.grow a members ↔ s = a ∨ s ∈ sets := by
  rw [grow, Std.ExtTreeMap.mem_insert, Std.LawfulEqCmp.compare_eq_iff_eq, eq_comm]

theorem of_ofSymbols {symbols : List Symbol} (hnodup : symbols.Nodup) (f : Symbol → SymbolSet)
    {s : Symbol} (h : s ∈ symbols) : (ofSymbols symbols f).of s = f s := by
  have hdistinct : (symbols.map fun s => (s, f s)).Pairwise
      fun a b => ¬compare a.1 b.1 = .eq := by
    rw [List.pairwise_map]
    exact hnodup.imp fun hne heq => hne (Std.LawfulEqOrd.eq_of_compare heq)
  rw [of, Std.ExtTreeMap.getD_eq_getD_getElem?, ofSymbols,
    Std.ExtTreeMap.getElem?_ofList_of_mem Std.ReflCmp.compare_self hdistinct
      (List.mem_map.mpr ⟨s, h, rfl⟩)]
  rfl

theorem mem_ofSymbols {symbols : List Symbol} {f : Symbol → SymbolSet} {s : Symbol} :
    s ∈ ofSymbols symbols f ↔ s ∈ symbols := by
  simp [ofSymbols, Std.ExtTreeMap.mem_ofList, Function.comp_def]

theorem mem_of_ofSymbols {symbols : List Symbol} (hnodup : symbols.Nodup)
    {f : Symbol → SymbolSet} {s t : Symbol} (h : t ∈ (ofSymbols symbols f).of s) :
    s ∈ symbols ∧ t ∈ f s := by
  by_cases hs : s ∈ symbols
  · exact ⟨hs, of_ofSymbols hnodup f hs ▸ h⟩
  · rw [of, Std.ExtTreeMap.getD_eq_fallback (mt mem_ofSymbols.mp hs)] at h
    simp at h

/-! ### FIRST of a string -/

section First

variable {first : SymbolSets} {t : Symbol}

theorem mem_firstOfSequence_nil : t ∈ first.firstOfSequence [] ↔ t = Symbol.emptyMark := by
  rw [firstOfSequence, eq_comm]
  simp

/-- What can stand at a place where `here` is expected and may let `next` through. -/
theorem mem_letThrough {here next : SymbolSet} :
    t ∈ (if here.contains Symbol.emptyMark then here.erase Symbol.emptyMark ∪ next else here) ↔
      t ∈ here ∧ t ≠ Symbol.emptyMark ∨ Symbol.emptyMark ∈ here ∧ t ∈ next := by
  by_cases h : Symbol.emptyMark ∈ here
  · simp only [Std.ExtTreeSet.contains_iff_mem, h, if_true, true_and, Std.ExtTreeSet.mem_union_iff,
      Std.ExtTreeSet.mem_erase, ne_eq, Std.LawfulEqCmp.compare_eq_iff_eq]
    rw [and_comm, eq_comm]
  · have hne : t ∈ here → t ≠ Symbol.emptyMark := fun ht heq => h (heq ▸ ht)
    simp only [Std.ExtTreeSet.contains_iff_mem, h, if_false, false_and, or_false]
    exact ⟨fun ht => ⟨ht, hne ht⟩, And.left⟩

theorem mem_firstOfSequence_cons {s : Symbol} {rest : List Symbol} :
    t ∈ first.firstOfSequence (s :: rest) ↔
      t ∈ first.of s ∧ t ≠ Symbol.emptyMark ∨
        Symbol.emptyMark ∈ first.of s ∧ t ∈ first.firstOfSequence rest := by
  rw [firstOfSequence]
  exact mem_letThrough

theorem mem_firstOfSequence_append {u v : List Symbol} :
    t ∈ first.firstOfSequence (u ++ v) ↔
      t ∈ first.firstOfSequence u ∧ t ≠ Symbol.emptyMark ∨
        Symbol.emptyMark ∈ first.firstOfSequence u ∧ t ∈ first.firstOfSequence v := by
  induction u with
  | nil => simp [mem_firstOfSequence_nil]
  | cons s u ih =>
      -- the empty mark of a set is dropped where another string follows it
      simp only [List.cons_append, mem_firstOfSequence_cons, ih]
      grind

/-- The family is closed under the rounds of FIRST. -/
structure FirstClosed (g : Grammar) (first : SymbolSets) : Prop where
  /-- A terminal begins with itself. -/
  terminal : ∀ s ∈ g.terminals, s ∈ first.of s
  /-- FIRST of a right-hand side belongs to its left-hand side. -/
  rule : ∀ p ∈ g.rules, ∀ t ∈ first.firstOfSequence p.rhs, t ∈ first.of p.lhs

variable {g : Grammar}

/-- Undoing a rewriting keeps what FIRST of the string holds. -/
theorem FirstClosed.mem_of_rewrites (h : first.FirstClosed g) {u v : List Symbol}
    (hstep : g.Rewrites u v) (ht : t ∈ first.firstOfSequence v) :
    t ∈ first.firstOfSequence u := by
  obtain ⟨before, after, hp⟩ := hstep
  have hrule := h.rule _ hp
  simp only [List.append_assoc, mem_firstOfSequence_append, mem_firstOfSequence_cons] at ht ⊢
  rcases ht with ht | ⟨hbefore, ht | ⟨hrhs, ht⟩⟩
  · exact Or.inl ht
  · exact Or.inr ⟨hbefore, Or.inl ⟨hrule t ht.1, ht.2⟩⟩
  · exact Or.inr ⟨hbefore, Or.inr ⟨hrule _ hrhs, ht⟩⟩

theorem FirstClosed.mem_of_derives (h : first.FirstClosed g) {u v : List Symbol}
    (hd : g.Derives u v) (ht : t ∈ first.firstOfSequence v) : t ∈ first.firstOfSequence u := by
  induction hd using Relation.ReflTransGen.head_induction_on with
  | refl => exact ht
  | head hstep _ ih => exact h.mem_of_rewrites hstep ih

/-- A string that derives the empty string has the empty mark. -/
theorem FirstClosed.emptyMark_mem (h : first.FirstClosed g) {u : List Symbol}
    (hd : g.Derives u []) : Symbol.emptyMark ∈ first.firstOfSequence u :=
  h.mem_of_derives hd (mem_firstOfSequence_nil.mpr rfl)

/-- A string that derives one beginning with a terminal has the terminal. -/
theorem FirstClosed.terminal_mem (h : first.FirstClosed g) {u v : List Symbol} {b : Symbol}
    (hb : b ∈ g.terminals) (hd : g.Derives u (b :: v)) : b ∈ first.firstOfSequence u := by
  refine h.mem_of_derives hd (mem_firstOfSequence_cons.mpr (Or.inl ⟨h.terminal b hb, ?_⟩))
  rintro rfl
  exact g.emptyMark_notMem_terminals hb

end First

/-! ### Families over a carrier -/

/-- The family has a set for every non-terminal, and its members are terminals or `mark`. -/
structure Within (g : Grammar) (mark : Symbol) (sets : SymbolSets) : Prop where
  covers : ∀ a, g.isNonTerminal a = true → a ∈ sets
  members : ∀ s, ∀ t ∈ sets.of s, t ∈ g.terminals ∨ t = mark

/-- The pairs of a non-terminal and a possible member. -/
def carrier (g : Grammar) (mark : Symbol) : Finset (Symbol × Symbol) :=
  g.nonTerminals.toList.toFinset ×ˢ (mark :: g.terminals.toList).toFinset

/-- How many of the pairs the family holds. -/
def pairCount (g : Grammar) (mark : Symbol) (sets : SymbolSets) : Nat :=
  ((carrier g mark).filter fun q => q.2 ∈ sets.of q.1).card

variable {g : Grammar} {mark : Symbol}

theorem pairCount_le (sets : SymbolSets) : sets.pairCount g mark ≤ g.memberBound := by
  calc sets.pairCount g mark ≤ (carrier g mark).card := Finset.card_filter_le _ _
    _ = _ := Finset.card_product _ _
    _ ≤ g.nonTerminals.size * (g.terminals.size + 1) := by
        refine Nat.mul_le_mul ?_ ?_
        · exact (List.toFinset_card_le _).trans (by simp)
        · exact (List.toFinset_card_le _).trans (by simp)

theorem Within.grow {sets : SymbolSets} (h : sets.Within g mark) {a : Symbol} {members : SymbolSet}
    (hmembers : ∀ t ∈ members, t ∈ g.terminals ∨ t = mark) :
    (sets.grow a members).Within g mark where
  covers b hb := mem_grow.mpr (Or.inr (h.covers b hb))
  members s t ht := by
    rcases mem_of_grow.mp ht with ht | ⟨-, ht⟩
    · exact h.members s t ht
    · exact hmembers t ht

/-- An addition to the set of a non-terminal adds a pair, or nothing. -/
theorem Within.grows {sets : SymbolSets} (h : sets.Within g mark) {a : Symbol}
    (ha : g.isNonTerminal a = true) {members : SymbolSet}
    (hmembers : ∀ t ∈ members, t ∈ g.terminals ∨ t = mark) :
    Grows (pairCount g mark) sets (sets.grow a members) := by
  by_cases hold : ∀ t ∈ members, t ∈ sets.of a
  · exact Or.inl (grow_eq_self (h.covers a ha) hold)
  · -- one new pair is enough: the number of pairs held goes up
    push Not at hold
    obtain ⟨t, ht, hnew⟩ := hold
    have hpair : (a, t) ∈ carrier g mark := by
      simp only [carrier, Finset.mem_product, List.mem_toFinset, Std.ExtTreeSet.mem_toList,
        List.mem_cons]
      exact ⟨Grammar.mem_nonTerminals.mpr ha, (hmembers t ht).symm⟩
    exact Or.inr (Grows.card_filter _ (fun q _ hq => mem_of_grow.mpr (Or.inl hq)) hpair
      (mem_of_grow.mpr (Or.inr ⟨rfl, ht⟩)) hnew)

/-- FIRST of a string over a family of terminals and empty marks is such a set. -/
theorem Within.firstOfSequence {first : SymbolSets} (h : first.Within g Symbol.emptyMark)
    {u : List Symbol} : ∀ t ∈ first.firstOfSequence u, t ∈ g.terminals ∨ t = Symbol.emptyMark := by
  induction u with
  | nil =>
      intro t ht
      exact Or.inr (mem_firstOfSequence_nil.mp ht)
  | cons s u ih =>
      intro t ht
      rcases mem_firstOfSequence_cons.mp ht with ⟨ht, -⟩ | ⟨-, ht⟩
      · exact h.members s t ht
      · exact ih t ht

end SymbolSets

/-! ### The FIRST sets -/

namespace Grammar

open SymbolSets

variable {g : Grammar}

/-- What every round over the productions keeps for FIRST. -/
structure FirstInvariant (g : Grammar) (first : SymbolSets) : Prop
    extends first.Within g Symbol.emptyMark where
  /-- A terminal begins with itself. -/
  terminal : ∀ s ∈ g.terminals, s ∈ first.of s

theorem firstInvariant_step {first : SymbolSets} (h : g.FirstInvariant first) (p : Production) :
    g.FirstInvariant (first.grow p.lhs (first.firstOfSequence p.rhs)) where
  toWithin := h.toWithin.grow h.toWithin.firstOfSequence
  terminal s hs := mem_of_grow.mpr (Or.inl (h.terminal s hs))

/-- The FIRST sets before the first round: a terminal begins with itself. -/
def firstStart (g : Grammar) : SymbolSets :=
  .ofSymbols (g.terminals.toList ++ g.nonTerminals.toList)
    fun s => if g.terminals.contains s then {s} else ∅

/-- No symbol is both a terminal and a non-terminal. -/
theorem nodup_symbols (g : Grammar) : (g.terminals.toList ++ g.nonTerminals.toList).Nodup := by
  refine List.nodup_append'.mpr ⟨nodup_toList _, nodup_toList _, ?_⟩
  intro s h₁ h₂
  have hn := mem_nonTerminals.mp (Std.ExtTreeSet.mem_toList.mp h₂)
  rw [(mem_terminals.mp (Std.ExtTreeSet.mem_toList.mp h₁)).1] at hn
  exact absurd hn (by simp)

/-- Before the first round, only terminals begin with anything. -/
theorem mem_firstStart_of {s t : Symbol} : t ∈ g.firstStart.of s ↔ s ∈ g.terminals ∧ t = s := by
  constructor
  · intro ht
    obtain ⟨-, ht⟩ := mem_of_ofSymbols g.nodup_symbols ht
    split at ht
    · rename_i hs
      obtain rfl : s = t := by simpa using ht
      exact ⟨by simpa using hs, rfl⟩
    · simp at ht
  · rintro ⟨hs, rfl⟩
    rw [firstStart, of_ofSymbols g.nodup_symbols _ (by simp [hs])]
    simp [hs]

theorem firstInvariant_start (g : Grammar) : g.FirstInvariant g.firstStart := by
  refine ⟨⟨fun a ha => ?_, fun s t ht => ?_⟩, fun s hs => mem_firstStart_of.mpr ⟨hs, rfl⟩⟩
  · exact mem_ofSymbols.mpr (by simp [mem_nonTerminals, ha])
  · obtain ⟨hs, rfl⟩ := mem_firstStart_of.mp ht
    exact Or.inl hs

/-- The FIRST sets are a fixed point of their round, and keep its invariant. -/
theorem firstSets_fixed (g : Grammar) :
    g.firstRound g.firstSets = g.firstSets ∧ g.FirstInvariant g.firstSets := by
  have hround : ∀ first, g.FirstInvariant first → g.FirstInvariant (g.firstRound first) :=
    fun first h =>
      Grows.foldl_invariant (P := g.FirstInvariant) (fun p _ x hx => firstInvariant_step hx p) h
  have hgrows : ∀ first, g.FirstInvariant first →
      Grows (pairCount g Symbol.emptyMark) first (g.firstRound first) := by
    intro first h
    refine Grows.foldl (P := g.FirstInvariant) (fun p _ x hx => firstInvariant_step hx p)
      (fun p hp x hx => ?_) h
    exact hx.toWithin.grows (isNonTerminal_lhs hp) hx.toWithin.firstOfSequence
  exact ⟨step_saturate hround hgrows pairCount_le (firstInvariant_start g) (Nat.le_add_left _ _),
    saturate_invariant hround _ (firstInvariant_start g)⟩

theorem firstSets_within (g : Grammar) : g.firstSets.Within g Symbol.emptyMark :=
  g.firstSets_fixed.2.toWithin

theorem firstSets_closed (g : Grammar) : g.firstSets.FirstClosed g where
  terminal := g.firstSets_fixed.2.terminal
  rule p hp t ht := by
    obtain ⟨hfix, hinv⟩ := g.firstSets_fixed
    have hp' := Grows.foldl_fixed (P := g.FirstInvariant) (μ := pairCount g Symbol.emptyMark)
      (fun p _ x hx => firstInvariant_step hx p)
      (fun p hp x hx => hx.toWithin.grows (isNonTerminal_lhs hp) hx.toWithin.firstOfSequence)
      hinv hfix p hp
    rw [← hp']
    exact mem_of_grow.mpr (Or.inr ⟨rfl, ht⟩)

/-! ### The FOLLOW sets -/

/-- The symbols that can come right after another one: the end mark after the goal symbol, what the
rest of a right-hand side begins with, and what comes after the left-hand side if the rest can
vanish. -/
inductive Follows (g : Grammar) : Symbol → Symbol → Prop
  /-- Nothing need follow the goal symbol. -/
  | goal : g.Follows Symbol.goal Symbol.endMark
  /-- The rest begins with a terminal. -/
  | inside {p : Production} {before rest tail : List Symbol} {s t : Symbol} (hp : p ∈ g.rules)
      (hrhs : p.rhs = before ++ s :: rest) (hd : g.Derives rest (t :: tail))
      (ht : t ∈ g.terminals) : g.Follows s t
  /-- The rest vanishes. -/
  | inherit {p : Production} {before rest : List Symbol} {s t : Symbol} (hp : p ∈ g.rules)
      (hrhs : p.rhs = before ++ s :: rest) (hd : g.Derives rest []) (h : g.Follows p.lhs t) :
      g.Follows s t

theorem Follows.terminal_or_endMark {s t : Symbol} (h : g.Follows s t) :
    t ∈ g.terminals ∨ t = Symbol.endMark := by
  induction h with
  | goal => exact Or.inr rfl
  | inside _ _ _ ht => exact Or.inl ht
  | inherit _ _ _ _ ih => exact ih

/-- The family is closed under the rounds of FOLLOW. -/
structure FollowClosed (g : Grammar) (first follow : SymbolSets) : Prop where
  goal : Symbol.endMark ∈ follow.of Symbol.goal
  /-- FOLLOW of a non-terminal has FIRST of the rest, and FOLLOW of the left-hand side if the rest
  can vanish. -/
  rule : ∀ p ∈ g.rules, ∀ before s rest, p.rhs = before ++ s :: rest → g.isNonTerminal s = true →
    ∀ t, t ∈ first.firstOfSequence rest ∧ t ≠ Symbol.emptyMark ∨
      Symbol.emptyMark ∈ first.firstOfSequence rest ∧ t ∈ follow.of p.lhs → t ∈ follow.of s

/-- A closed family has every symbol that can come next. -/
theorem FollowClosed.mem_of_follows {first follow : SymbolSets} (hfirst : first.FirstClosed g)
    (h : g.FollowClosed first follow) {s t : Symbol} (hs : g.isNonTerminal s = true)
    (hfollows : g.Follows s t) : t ∈ follow.of s := by
  induction hfollows with
  | goal => exact h.goal
  | inside hp hrhs hd ht =>
      refine h.rule _ hp _ _ _ hrhs hs _ (Or.inl ⟨hfirst.terminal_mem ht hd, ?_⟩)
      rintro rfl
      exact g.emptyMark_notMem_terminals ht
  | inherit hp hrhs hd _ ih =>
      exact h.rule _ hp _ _ _ hrhs hs _
        (Or.inr ⟨hfirst.emptyMark_mem hd, ih (isNonTerminal_lhs hp)⟩)

/-! One round is a fold over the productions, and within a production over the symbols of its
right-hand side. What holds of a single addition is lifted through both. -/

section FollowRound

variable {first : SymbolSets}

/-- Members that the round gives to a symbol are terminals or end marks. -/
theorem followMembers_within (hfirst : first.Within g Symbol.emptyMark) {follow : SymbolSets}
    (h : follow.Within g Symbol.endMark) {lhs : Symbol} {rest : List Symbol} :
    ∀ t ∈ (if (first.firstOfSequence rest).contains Symbol.emptyMark then
        (first.firstOfSequence rest).erase Symbol.emptyMark ∪ follow.of lhs
      else first.firstOfSequence rest), t ∈ g.terminals ∨ t = Symbol.endMark := by
  intro t ht
  rcases mem_letThrough.mp ht with ⟨ht, hne⟩ | ⟨-, ht⟩
  · exact Or.inl ((hfirst.firstOfSequence t ht).resolve_right hne)
  · exact h.members lhs t ht

theorem followTail_within (hfirst : first.Within g Symbol.emptyMark) {lhs : Symbol}
    {rhs : List Symbol} : ∀ {follow : SymbolSets}, follow.Within g Symbol.endMark →
      (g.followTail first lhs rhs follow).Within g Symbol.endMark := by
  induction rhs with
  | nil => exact fun h => h
  | cons s rest ih =>
      intro follow h
      rw [followTail]
      split
      · exact ih (h.grow (followMembers_within hfirst h))
      · exact ih h

theorem followTail_grows (hfirst : first.Within g Symbol.emptyMark) {lhs : Symbol}
    {rhs : List Symbol} : ∀ {follow : SymbolSets}, follow.Within g Symbol.endMark →
      Grows (pairCount g Symbol.endMark) follow (g.followTail first lhs rhs follow) := by
  induction rhs with
  | nil => exact fun _ => Grows.refl _
  | cons s rest ih =>
      intro follow h
      rw [followTail]
      split
      · rename_i hs
        have hmembers := @followMembers_within g first hfirst follow h lhs rest
        exact (h.grows hs hmembers).trans (ih (h.grow hmembers))
      · exact ih h

/-- Where a production adds nothing, FOLLOW of its symbols has what the production calls for. -/
theorem mem_of_followTail_fixed (hfirst : first.Within g Symbol.emptyMark) {lhs : Symbol}
    {follow : SymbolSets} (h : follow.Within g Symbol.endMark) {rhs : List Symbol}
    (hfix : g.followTail first lhs rhs follow = follow) {before rest : List Symbol} {s : Symbol}
    (hrhs : rhs = before ++ s :: rest) (hs : g.isNonTerminal s = true) {t : Symbol}
    (ht : t ∈ first.firstOfSequence rest ∧ t ≠ Symbol.emptyMark ∨
      Symbol.emptyMark ∈ first.firstOfSequence rest ∧ t ∈ follow.of lhs) : t ∈ follow.of s := by
  induction rhs generalizing before with
  | nil => simp at hrhs
  | cons s' rest' ih =>
      -- the first symbol adds nothing, since what comes later cannot take it back
      rw [followTail] at hfix
      have hmembers := @followMembers_within g first hfirst follow h lhs rest'
      cases before with
      | nil =>
          obtain ⟨rfl, rfl⟩ : s' = s ∧ rest' = rest := by simpa using hrhs
          rw [if_pos hs] at hfix
          have hgrow := (h.grows hs hmembers).eq_of_eq
            (followTail_grows hfirst (h.grow hmembers)) hfix
          rw [← hgrow]
          exact mem_of_grow.mpr (Or.inr ⟨rfl, mem_letThrough.mpr ht⟩)
      | cons b before =>
          obtain ⟨rfl, hrest⟩ : s' = b ∧ rest' = before ++ s :: rest := by simpa using hrhs
          refine ih ?_ hrest
          split at hfix
          · rename_i hs'
            have hgrow := (h.grows hs' hmembers).eq_of_eq
              (followTail_grows hfirst (h.grow hmembers)) hfix
            rwa [hgrow] at hfix
          · exact hfix

theorem followTail_mono {lhs s t : Symbol} {rhs : List Symbol} :
    ∀ {follow : SymbolSets}, t ∈ follow.of s → t ∈ (g.followTail first lhs rhs follow).of s := by
  induction rhs with
  | nil => exact fun h => h
  | cons s' rest ih =>
      intro follow h
      rw [followTail]
      split
      · exact ih (mem_of_grow.mpr (Or.inl h))
      · exact ih h

end FollowRound

/-- What every round over the productions keeps for FOLLOW. -/
structure FollowInvariant (g : Grammar) (follow : SymbolSets) : Prop
    extends follow.Within g Symbol.endMark where
  goal : Symbol.endMark ∈ follow.of Symbol.goal

/-- The FOLLOW sets before the first round: the end mark follows the goal symbol. -/
def followStart (g : Grammar) : SymbolSets :=
  .ofSymbols g.nonTerminals.toList fun s => if s = Symbol.goal then {Symbol.endMark} else ∅

theorem isNonTerminal_goal (g : Grammar) : g.isNonTerminal Symbol.goal = true :=
  isNonTerminal_lhs (p := g.goalRule) (by simp [rules])

/-- Before the first round, only the goal symbol is followed by anything. -/
theorem mem_followStart_of {s t : Symbol} :
    t ∈ g.followStart.of s ↔ s = Symbol.goal ∧ t = Symbol.endMark := by
  constructor
  · intro ht
    obtain ⟨-, ht⟩ := mem_of_ofSymbols (nodup_toList _) ht
    split at ht
    · rename_i hs
      obtain rfl : Symbol.endMark = t := by simpa using ht
      exact ⟨hs, rfl⟩
    · simp at ht
  · rintro ⟨rfl, rfl⟩
    have hgoal : Symbol.goal ∈ g.nonTerminals.toList := by
      simp [mem_nonTerminals, isNonTerminal_goal]
    rw [followStart, of_ofSymbols (nodup_toList _) _ hgoal]
    simp

theorem followInvariant_start (g : Grammar) : g.FollowInvariant g.followStart := by
  refine ⟨⟨fun a ha => ?_, fun s t ht => ?_⟩, mem_followStart_of.mpr ⟨rfl, rfl⟩⟩
  · exact mem_ofSymbols.mpr (by simp [mem_nonTerminals, ha])
  · obtain ⟨-, rfl⟩ := mem_followStart_of.mp ht
    exact Or.inr rfl

theorem followInvariant_step {follow : SymbolSets} (h : g.FollowInvariant follow)
    (p : Production) : g.FollowInvariant (g.followTail g.firstSets p.lhs p.rhs follow) :=
  ⟨followTail_within g.firstSets_within h.toWithin, followTail_mono h.goal⟩

/-- The FOLLOW sets are a fixed point of their round, and keep its invariant. -/
theorem followSets_fixed (g : Grammar) :
    g.followRound g.firstSets (g.followSets g.firstSets) = g.followSets g.firstSets ∧
      g.FollowInvariant (g.followSets g.firstSets) := by
  have hround : ∀ follow, g.FollowInvariant follow →
      g.FollowInvariant (g.followRound g.firstSets follow) :=
    fun follow h =>
      Grows.foldl_invariant (P := g.FollowInvariant) (fun p _ x hx => followInvariant_step hx p) h
  have hgrows : ∀ follow, g.FollowInvariant follow →
      Grows (pairCount g Symbol.endMark) follow (g.followRound g.firstSets follow) := by
    intro follow h
    refine Grows.foldl (P := g.FollowInvariant) (fun p _ x hx => followInvariant_step hx p)
      (fun p _ x hx => ?_) h
    exact followTail_grows g.firstSets_within hx.toWithin
  exact ⟨step_saturate hround hgrows pairCount_le (followInvariant_start g) (Nat.le_add_left _ _),
    saturate_invariant hround _ (followInvariant_start g)⟩

theorem followSets_within (g : Grammar) : (g.followSets g.firstSets).Within g Symbol.endMark :=
  g.followSets_fixed.2.toWithin

/-- The FOLLOW sets are closed. -/
theorem followSets_closed (g : Grammar) :
    g.FollowClosed g.firstSets (g.followSets g.firstSets) where
  goal := g.followSets_fixed.2.goal
  rule p hp before s rest hrhs hs t ht := by
    obtain ⟨hfix, hinv⟩ := g.followSets_fixed
    have hp' := Grows.foldl_fixed (P := g.FollowInvariant) (μ := pairCount g Symbol.endMark)
      (fun p _ x hx => followInvariant_step hx p)
      (fun p _ x hx => followTail_grows g.firstSets_within hx.toWithin) hinv hfix p hp
    exact mem_of_followTail_fixed g.firstSets_within hinv.toWithin hp' hrhs hs ht

/-- FOLLOW of a non-terminal has every symbol that can come right after it. -/
theorem mem_followSets_of_follows {s t : Symbol} (hs : g.isNonTerminal s = true)
    (h : g.Follows s t) : t ∈ (g.followSets g.firstSets).of s :=
  FollowClosed.mem_of_follows g.firstSets_closed g.followSets_closed hs h

end Grammar

end ShiftReduce
