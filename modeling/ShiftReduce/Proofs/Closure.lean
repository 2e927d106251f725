import Mathlib.Data.List.Nodup
import Mathlib.Data.Finset.Range
import ShiftReduce.Item
import ShiftReduce.Proofs.Grammar
import ShiftReduce.Proofs.Saturation

/-!
# ShiftReduce.Proofs.Closure

**Closure and goto as sets of items.** `Grammar.InClosure` says inductively what the closure of a
set is: its members, and the start of every production whose left-hand side some member scans.
`Grammar.mem_closure` shows that the rounds of `Grammar.closure` find exactly these.

The number of rounds suffices because a round that changes the set adds the start of a production
that was not there, and there are only as many of those as productions.

Among finite sets the closure is the least closed one that holds the given items
(`Grammar.isClosed_closure`, `Grammar.closure_least`). A set whose items do not all name a
production has no closure: the items are checked in a fixed order, and the first unknown production
is refused (`Grammar.checkItems_error`).
-/

namespace ShiftReduce

/-- Items are listed by production. -/
theorem Item.rule_le_of_lt {i j : Item} (h : compare i j = .lt) : i.rule ≤ j.rule := by
  have hthen : (compare i.rule j.rule).then (compare i.marker j.marker) = .lt := h
  rcases Ordering.then_eq_lt.mp hthen with hlt | ⟨heq, -⟩
  · exact Nat.le_of_lt (Nat.compare_eq_lt.mp hlt)
  · exact Nat.le_of_eq (Nat.compare_eq_eq.mp heq)

namespace Grammar

variable {g : Grammar} {items : ItemSet}

/-! ### Single items -/

/-- The item belongs to the grammar: its production exists, and its marker is inside. -/
def IsItem (g : Grammar) (i : Item) : Prop :=
  ∃ p, g.rule? i.rule = some p ∧ i.marker ≤ p.rhs.length

theorem scanned?_eq_some {i : Item} {s : Symbol} :
    g.scanned? i = some s ↔ ∃ p, g.rule? i.rule = some p ∧ p.rhs[i.marker]? = some s := by
  simp [scanned?, Option.bind_eq_some_iff]

theorem isItem_start {r : Nat} {p : Production} (h : g.rule? r = some p) : g.IsItem ⟨r, 0⟩ :=
  ⟨p, h, Nat.zero_le _⟩

theorem isItem_advance {i : Item} {s : Symbol} (h : g.scanned? i = some s) :
    g.IsItem i.advance := by
  obtain ⟨p, hp, hs⟩ := scanned?_eq_some.mp h
  exact ⟨p, hp, (List.getElem?_eq_some_iff.mp hs).1⟩

/-- A scanned symbol is on a right-hand side. -/
theorem scanned?_mem_rhs {i : Item} {s : Symbol} (h : g.scanned? i = some s) :
    ∃ p ∈ g.rules, s ∈ p.rhs := by
  obtain ⟨p, hp, hs⟩ := scanned?_eq_some.mp h
  exact ⟨p, mem_rules_of_rule? hp, List.mem_of_getElem? hs⟩

/-- The goal symbol is never scanned. -/
theorem scanned?_ne_goal {i : Item} : g.scanned? i ≠ some Symbol.goal := by
  intro h
  obtain ⟨p, hp, hs⟩ := scanned?_mem_rhs h
  exact goal_notMem_rhs hp hs

/-! ### Scanned symbols -/

theorem mem_scannedSet {s : Symbol} :
    s ∈ g.scannedSet items ↔ ∃ i ∈ items, g.scanned? i = some s := by
  simp [scannedSet]

theorem mem_scannedSymbols {s : Symbol} :
    s ∈ g.scannedSymbols items ↔ ∃ i ∈ items, g.scanned? i = some s := by
  rw [← mem_scannedSet]
  simp only [scannedSymbols, List.mem_append, List.mem_filter, Std.ExtTreeSet.mem_toList]
  constructor
  · rintro ((h | h) | h) <;> exact h.1
  · intro h
    by_cases hs : s = g.start
    · exact Or.inl (Or.inl ⟨h, by simp [hs]⟩)
    · by_cases hn : g.isNonTerminal s = true
      · exact Or.inl (Or.inr ⟨h, by simp [hs, hn]⟩)
      · exact Or.inr ⟨h, by simp [hn]⟩

/-- No symbol is followed twice. -/
theorem nodup_scannedSymbols : (g.scannedSymbols items).Nodup := by
  have hall := nodup_toList (g.scannedSet items)
  rw [scannedSymbols, List.nodup_append', List.nodup_append']
  refine ⟨⟨hall.filter _, hall.filter _, ?_⟩, hall.filter _, ?_⟩
  · intro s h₁ h₂
    simp only [List.mem_filter, beq_iff_eq, bne_iff_ne, Bool.and_eq_true] at h₁ h₂
    exact h₂.2.1 h₁.2
  · intro s h₁ h₂
    simp only [List.mem_append, List.mem_filter, beq_iff_eq, Bool.and_eq_true,
      Bool.not_eq_true'] at h₁ h₂
    rcases h₁ with h₁ | h₁
    · rw [h₁.2, g.isNonTerminal_start] at h₂
      exact absurd h₂.2 (by simp)
    · rw [h₁.2.2] at h₂
      exact absurd h₂.2 (by simp)

/-! ### Closure -/

/-- What the closure of a set of items holds. -/
inductive InClosure (g : Grammar) (items : ItemSet) : Item → Prop
  /-- The given items. -/
  | base {i : Item} (h : i ∈ items) : InClosure g items i
  /-- The start of every production of a scanned symbol. -/
  | predict {i : Item} {r : Nat} {p : Production} (h : InClosure g items i)
      (hs : g.scanned? i = some p.lhs) (hr : g.rule? r = some p) : InClosure g items ⟨r, 0⟩

theorem mem_startItems {symbols : SymbolSet} {i : Item} :
    i ∈ g.startItems symbols ↔
      ∃ r p, g.rule? r = some p ∧ p.lhs ∈ symbols ∧ i = ⟨r, 0⟩ := by
  simp only [startItems, List.mem_map, List.mem_filter, Prod.exists, List.mem_zipIdx_iff_getElem?,
    Std.ExtTreeSet.contains_iff_mem]
  constructor
  · rintro ⟨p, r, ⟨hr, hp⟩, rfl⟩
    exact ⟨r, p, hr, hp, rfl⟩
  · rintro ⟨r, p, hr, hp, rfl⟩
    exact ⟨p, r, ⟨hr, hp⟩, rfl⟩

theorem mem_predict {i : Item} :
    i ∈ g.predict items ↔ i ∈ items ∨
      ∃ j ∈ items, ∃ r p, g.scanned? j = some p.lhs ∧ g.rule? r = some p ∧ i = ⟨r, 0⟩ := by
  simp only [predict, Std.ExtTreeSet.mem_insertMany_list, List.contains_iff_mem, mem_startItems,
    mem_scannedSet]
  constructor
  · rintro (h | ⟨r, p, hr, ⟨j, hj, hs⟩, rfl⟩)
    · exact Or.inl h
    · exact Or.inr ⟨j, hj, r, p, hs, hr, rfl⟩
  · rintro (h | ⟨j, hj, r, p, hs, hr, rfl⟩)
    · exact Or.inl h
    · exact Or.inr ⟨r, p, hr, ⟨j, hj, hs⟩, rfl⟩

/-- How many productions have their start in the set. -/
def startCount (g : Grammar) (items : ItemSet) : Nat :=
  ((Finset.range g.rules.length).filter fun r => (⟨r, 0⟩ : Item) ∈ items).card

theorem startCount_le (items : ItemSet) : g.startCount items ≤ g.rules.length := by
  simpa [startCount] using Finset.card_filter_le (Finset.range g.rules.length) _

/-- A round of predictions adds the start of a production, or nothing. -/
theorem predict_grows (items : ItemSet) : Grows g.startCount items (g.predict items) := by
  by_cases h : ∀ i ∈ g.predict items, i ∈ items
  · exact Or.inl (Std.ExtTreeSet.ext_mem fun i => ⟨h i, fun hi => mem_predict.mpr (Or.inl hi)⟩)
  · push Not at h
    obtain ⟨i, hi, hnew⟩ := h
    rcases mem_predict.mp hi with hold | ⟨j, hj, r, p, hs, hr, rfl⟩
    · exact absurd hold hnew
    · exact Or.inr (Grows.card_filter _ (fun q _ hq => mem_predict.mpr (Or.inl hq))
        (Finset.mem_range.mpr (lt_of_rule? hr)) hi hnew)

/-- Predicting from a closure adds nothing. -/
theorem predict_closure (items : ItemSet) : g.predict (g.closure items) = g.closure items :=
  step_saturate (P := fun _ => True) (fun _ h => h) (fun x _ => predict_grows x) startCount_le
    trivial (Nat.le_add_left _ _)

theorem subset_closure {i : Item} (h : i ∈ items) : i ∈ g.closure items :=
  saturate_invariant (P := fun x : ItemSet => i ∈ x) (fun _ hx => mem_predict.mpr (Or.inl hx)) _ h

/-- The rounds find the closure and nothing else. -/
theorem mem_closure {i : Item} : i ∈ g.closure items ↔ g.InClosure items i := by
  constructor
  · have hstep : ∀ x : ItemSet, (∀ i ∈ x, g.InClosure items i) →
        ∀ i ∈ g.predict x, g.InClosure items i := by
      intro x hx i hi
      rcases mem_predict.mp hi with hi | ⟨j, hj, r, p, hs, hr, rfl⟩
      · exact hx i hi
      · exact .predict (hx j hj) hs hr
    exact saturate_invariant (P := fun x : ItemSet => ∀ i ∈ x, g.InClosure items i) hstep _
      (fun _ => .base) i
  · intro h
    induction h with
    | base h => exact subset_closure h
    | @predict j r p _ hs hr ih =>
        rw [← predict_closure]
        exact mem_predict.mpr (Or.inr ⟨j, ih, r, p, hs, hr, rfl⟩)

/-- The closure of items of the grammar has only items of the grammar. -/
theorem isItem_closure (h : ∀ i ∈ items, g.IsItem i) : ∀ i ∈ g.closure items, g.IsItem i := by
  intro i hi
  cases mem_closure.mp hi with
  | base hi => exact h i hi
  | predict _ _ hr => exact isItem_start hr

/-! ### Goto -/

theorem mem_advanceOver {s : Symbol} {i : Item} :
    i ∈ g.advanceOver items s ↔ ∃ j ∈ items, g.scanned? j = some s ∧ i = j.advance := by
  simp only [advanceOver, Std.ExtTreeSet.mem_ofList, List.contains_iff_mem, List.mem_map,
    List.mem_filter, Std.ExtTreeSet.mem_toList, decide_eq_true_eq]
  constructor
  · rintro ⟨j, ⟨hj, hs⟩, rfl⟩
    exact ⟨j, hj, hs, rfl⟩
  · rintro ⟨j, hj, hs, rfl⟩
    exact ⟨j, ⟨hj, hs⟩, rfl⟩

theorem mem_goto {s : Symbol} {i : Item} :
    i ∈ g.goto items s ↔ g.InClosure (g.advanceOver items s) i :=
  mem_closure

/-- The goto of any set has only items of the grammar. -/
theorem isItem_goto {s : Symbol} : ∀ i ∈ g.goto items s, g.IsItem i := by
  refine isItem_closure fun i hi => ?_
  obtain ⟨j, -, hs, rfl⟩ := mem_advanceOver.mp hi
  exact isItem_advance hs

/-- The goto on a symbol is empty exactly if the symbol is not scanned. -/
theorem goto_eq_empty_iff {s : Symbol} : g.goto items s = ∅ ↔ s ∉ g.scannedSymbols items := by
  rw [mem_scannedSymbols, Std.ExtTreeSet.eq_empty_iff_forall_not_mem]
  constructor
  · rintro hempty ⟨i, hi, hs⟩
    have hmoved : i.advance ∈ g.advanceOver items s := mem_advanceOver.mpr ⟨i, hi, hs, rfl⟩
    exact hempty i.advance (subset_closure hmoved)
  · intro hs i hi
    have hclosed : g.InClosure (g.advanceOver items s) i := mem_goto.mp hi
    clear hi
    induction hclosed with
    | base hmoved =>
        obtain ⟨j, hj, hscan, -⟩ := mem_advanceOver.mp hmoved
        exact hs ⟨j, hj, hscan⟩
    | predict _ _ _ ih => exact ih

/-! ### The least closed set -/

/-- A set of items is closed if it holds the start of every production of a symbol that it scans. -/
def IsClosed (g : Grammar) (items : ItemSet) : Prop :=
  ∀ i ∈ items, ∀ (r : Nat) (p : Production),
    g.rule? r = some p → g.scanned? i = some p.lhs → ⟨r, 0⟩ ∈ items

theorem isClosed_closure (items : ItemSet) : g.IsClosed (g.closure items) := by
  intro i hi r p hr hs
  exact mem_closure.mpr (.predict (mem_closure.mp hi) hs hr)

/-- A closed set that holds some items holds their closure. -/
theorem closure_least {other : ItemSet} (hsub : ∀ i ∈ items, i ∈ other)
    (hclosed : g.IsClosed other) : ∀ i ∈ g.closure items, i ∈ other := by
  intro i hi
  have hin := mem_closure.mp hi
  clear hi
  induction hin with
  | base h => exact hsub _ h
  | predict _ hs hr ih => exact hclosed _ ih _ _ hr hs

theorem closure_mono {larger : ItemSet} (hsub : ∀ i ∈ items, i ∈ larger) :
    ∀ i ∈ g.closure items, i ∈ g.closure larger :=
  closure_least (fun i hi => subset_closure (hsub i hi)) (isClosed_closure larger)

theorem closure_eq_self (h : g.IsClosed items) : g.closure items = items :=
  Std.ExtTreeSet.ext_mem fun i => ⟨closure_least (fun _ => id) h i, subset_closure⟩

/-- The rounds of predictions end by themselves. -/
theorem rounds_closure (items : ItemSet) : Rounds g.predict items (g.closure items) :=
  rounds_saturate (predict_closure items)

/-! ### Unknown productions -/

/-- Every item names a production. Its marker may be anywhere. -/
def Known (g : Grammar) (items : ItemSet) : Prop :=
  ∀ i ∈ items, ∃ p, g.rule? i.rule = some p

theorem rule?_eq_none {r : Nat} : g.rule? r = none ↔ g.rules.length ≤ r :=
  List.getElem?_eq_none_iff

theorem Known.checkItems (h : g.Known items) {listed : List Item}
    (hlisted : ∀ i ∈ listed, i ∈ items) : g.checkItems listed = .ok () := by
  have hnone : listed.find? (fun i => (g.rule? i.rule).isNone) = none := by
    rw [List.find?_eq_none]
    intro i hi
    obtain ⟨p, hp⟩ := h i (hlisted i hi)
    simp [hp]
  rw [Grammar.checkItems, hnone]

theorem Known.closureOf (h : g.Known items) : g.closureOf items = .ok (g.closure items) := by
  rw [Grammar.closureOf, h.checkItems (by simp)]
  rfl

theorem Known.gotoOf (h : g.Known items) (s : Symbol) :
    g.gotoOf items s = .ok (g.goto items s) := by
  rw [Grammar.gotoOf, h.checkItems (by simp)]
  rfl

/-- The closure of known items is known, since predictions are. -/
theorem Known.closure (h : g.Known items) : g.Known (g.closure items) := by
  intro i hi
  cases mem_closure.mp hi with
  | base hi => exact h i hi
  | predict _ _ hr => exact ⟨_, hr⟩

theorem Known.advanceOver (h : g.Known items) (s : Symbol) : g.Known (g.advanceOver items s) := by
  intro i hi
  obtain ⟨j, hj, -, rfl⟩ := mem_advanceOver.mp hi
  exact h j hj

/-- A set lists its items by production. -/
theorem pairwise_rule_toList (items : ItemSet) :
    items.toList.Pairwise fun i j => i.rule ≤ j.rule :=
  Std.ExtTreeSet.ordered_toList.imp Item.rule_le_of_lt

/-- Of listed items that are not all known, the first unknown one is refused. -/
theorem checkItems_error {listed : List Item} (h : ∃ i ∈ listed, g.rule? i.rule = none) :
    ∃ before i after, listed = before ++ i :: after ∧ g.rule? i.rule = none ∧
      (∀ j ∈ before, g.rule? j.rule ≠ none) ∧ g.checkItems listed = .error (.rule i.rule) := by
  obtain ⟨j, hj, hnone⟩ := h
  obtain ⟨i, hfind⟩ : ∃ i, listed.find? (fun i => (g.rule? i.rule).isNone) = some i := by
    rw [← Option.isSome_iff_exists, List.find?_isSome]
    exact ⟨j, hj, by simp [hnone]⟩
  obtain ⟨hi, before, after, rfl, hbefore⟩ := List.find?_eq_some_iff_append.mp hfind
  refine ⟨before, i, after, rfl, by simpa using hi, fun k hk => ?_, ?_⟩
  · simpa [Option.isSome_iff_ne_none] using hbefore k hk
  · rw [checkItems, hfind]

/-- The closure of a set refuses the largest unknown production. -/
theorem closureOf_unknown (h : ∃ i ∈ items, g.rule? i.rule = none) :
    ∃ i ∈ items, g.rule? i.rule = none ∧ (∀ j ∈ items, j.rule ≤ i.rule) ∧
      g.closureOf items = .error (.rule i.rule) := by
  have hlisted : ∃ i ∈ items.toList.reverse, g.rule? i.rule = none := by simpa using h
  obtain ⟨before, i, after, hlist, hi, hbefore, hcheck⟩ := checkItems_error hlisted
  have hordered : (before ++ i :: after).Pairwise fun i j => j.rule ≤ i.rule := by
    rw [← hlist, List.pairwise_reverse]
    exact pairwise_rule_toList items
  have hmem : ∀ j, j ∈ items ↔ j ∈ before ++ i :: after := fun j => by simp [← hlist]
  refine ⟨i, (hmem i).mpr (by simp), hi, fun j hj => ?_, by rw [closureOf, hcheck]; rfl⟩
  rcases List.mem_append.mp ((hmem j).mp hj) with hj | hj
  · -- the items before the refused one are known, so their productions have smaller numbers
    have hlt : j.rule < g.rules.length := Nat.lt_of_not_le (mt rule?_eq_none.mpr (hbefore j hj))
    exact Nat.le_of_lt (Nat.lt_of_lt_of_le hlt (rule?_eq_none.mp hi))
  · rcases List.mem_cons.mp hj with rfl | hj
    · exact Nat.le_refl _
    · exact List.rel_of_pairwise_cons (List.pairwise_append.mp hordered).2.1 hj

/-- The goto of a set refuses the smallest unknown production. -/
theorem gotoOf_unknown (h : ∃ i ∈ items, g.rule? i.rule = none) :
    ∃ i ∈ items, g.rule? i.rule = none ∧ (∀ j ∈ items, g.rule? j.rule = none → i.rule ≤ j.rule) ∧
      ∀ s, g.gotoOf items s = .error (.rule i.rule) := by
  have hlisted : ∃ i ∈ items.toList, g.rule? i.rule = none := by simpa using h
  obtain ⟨before, i, after, hlist, hi, hbefore, hcheck⟩ := checkItems_error hlisted
  have hordered : (before ++ i :: after).Pairwise fun i j => i.rule ≤ j.rule :=
    hlist ▸ pairwise_rule_toList items
  have hmem : ∀ j, j ∈ items ↔ j ∈ before ++ i :: after := fun j => by simp [← hlist]
  refine ⟨i, (hmem i).mpr (by simp), hi, fun j hj hnone => ?_,
    fun s => by rw [gotoOf, hcheck]; rfl⟩
  rcases List.mem_append.mp ((hmem j).mp hj) with hj | hj
  · exact absurd hnone (hbefore j hj)
  · rcases List.mem_cons.mp hj with rfl | hj
    · exact Nat.le_refl _
    · exact List.rel_of_pairwise_cons (List.pairwise_append.mp hordered).2.1 hj

end Grammar

end ShiftReduce
