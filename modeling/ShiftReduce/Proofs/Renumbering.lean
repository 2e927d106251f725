import Mathlib.Logic.Equiv.Basic
import ShiftReduce.Proofs.Closure
import ShiftReduce.Proofs.Lookahead.Exact

/-!
# ShiftReduce.Proofs.Renumbering

**What does not depend on the order of the productions.** Two grammars with the same productions in
another order differ in the numbers of the productions. `Grammar.Renumbers` relates them by a
permutation of the numbers that keeps the goal production. Then

* the symbols, the derivations and with them the lookahead sets are the same
  (`Renumbers.lookahead_eq`). The rounds that find these sets go through the productions in another
  order, but what they find is exact;
* an item of the one is an item of the other with another number, and closure, goto and the scanned
  symbols respect that (`Renumbers.closure_eq`, `Renumbers.goto_eq`,
  `Renumbers.scannedSymbols_eq`).

A permutation of a list gives such a renumbering (`exists_renumbers`), and more than one if the list
has equal productions.
-/

namespace ShiftReduce

/-! ### Renumberings of lists -/

/-- The renumbering of the places behind one that stays. -/
def shiftPerm (p : Equiv.Perm Nat) : Equiv.Perm Nat where
  toFun
    | 0 => 0
    | n + 1 => p n + 1
  invFun
    | 0 => 0
    | n + 1 => p.symm n + 1
  left_inv n := by cases n <;> simp
  right_inv n := by cases n <;> simp

@[simp] theorem shiftPerm_zero (p : Equiv.Perm Nat) : shiftPerm p 0 = 0 := rfl

@[simp] theorem shiftPerm_succ (p : Equiv.Perm Nat) (n : Nat) : shiftPerm p (n + 1) = p n + 1 := rfl

/-- The elements of a permuted list are found at permuted places. -/
theorem exists_perm_getElem? {α : Type} {l l' : List α} (h : l.Perm l') :
    ∃ p : Equiv.Perm Nat, ∀ i, l'[p i]? = l[i]? := by
  induction h with
  | nil => exact ⟨Equiv.refl _, fun _ => rfl⟩
  | cons x _ ih =>
      obtain ⟨p, hp⟩ := ih
      refine ⟨shiftPerm p, fun i => ?_⟩
      cases i with
      | zero => simp
      | succ i => simpa using hp i
  | swap x y l =>
      refine ⟨Equiv.swap 0 1, fun i => ?_⟩
      match i with
      | 0 => simp
      | 1 => simp
      | i + 2 => simp [Equiv.swap_apply_of_ne_of_ne]
  | trans _ _ ih₁ ih₂ =>
      obtain ⟨p, hp⟩ := ih₁
      obtain ⟨q, hq⟩ := ih₂
      exact ⟨p.trans q, fun i => (hq (p i)).trans (hp i)⟩

/-! ### Renumberings of grammars -/

/-- The permutation takes the numbers of the productions of `g` to their numbers in `g'`, and keeps
the goal production. -/
structure Grammar.Renumbers (p : Equiv.Perm Nat) (g g' : Grammar) : Prop where
  goal : p 0 = 0
  rule : ∀ r, g'.rule? (p r) = g.rule? r

/-- The same declarations in another order, with the same start symbol, are renumbered. -/
theorem Grammar.exists_renumbers {g g' : Grammar} (h : g.declared.Perm g'.declared)
    (hstart : g'.start = g.start) : ∃ p, Renumbers p g g' := by
  obtain ⟨p, hp⟩ := exists_perm_getElem? h
  refine ⟨shiftPerm p, rfl, fun r => ?_⟩
  cases r with
  | zero => simp [goalRule, hstart]
  | succ r => exact hp r

/-- An accepted list of productions is accepted in every order. -/
theorem Grammar.exists_ofRules_of_perm {rules rules' : List Production} {g : Grammar}
    (h : ofRules rules = .ok g) (hperm : rules.Perm rules')
    (hhead : rules'.head?.map (·.lhs) = rules.head?.map (·.lhs)) :
    ∃ g', ofRules rules' = .ok g' ∧ ∃ p, Renumbers p g g' := by
  obtain rfl := ofRules_eq_ok.mp h
  have hne : rules' ≠ [] := fun hnil => g.nonempty (List.perm_nil.mp (hnil ▸ hperm))
  have hfaultless : ∀ q ∈ rules', q.fault? = none :=
    fun q hq => g.faultless q (hperm.mem_iff.mpr hq)
  refine ⟨⟨rules', hne, hfaultless⟩, ofRules_eq_ok.mpr rfl, exists_renumbers hperm ?_⟩
  rw [List.head?_eq_some_head hne, List.head?_eq_some_head g.nonempty] at hhead
  exact Option.some.inj hhead

namespace Grammar.Renumbers

variable {p : Equiv.Perm Nat} {g g' : Grammar}

theorem symm (h : Renumbers p g g') : Renumbers p.symm g' g where
  goal := (Equiv.symm_apply_eq p).mpr h.goal.symm
  rule r := by rw [← h.rule, Equiv.apply_symm_apply]

/-! ### Symbols and derivations -/

theorem mem_rules (h : Renumbers p g g') {q : Production} (hq : q ∈ g.rules) : q ∈ g'.rules := by
  obtain ⟨r, hr⟩ := exists_rule?_of_mem hq
  exact mem_rules_of_rule? ((h.rule r).trans hr)

theorem mem_rules_iff (h : Renumbers p g g') {q : Production} : q ∈ g'.rules ↔ q ∈ g.rules :=
  ⟨h.symm.mem_rules, h.mem_rules⟩

theorem start_eq (h : Renumbers p g g') : g'.start = g.start := by
  have hgoal := h.rule 0
  rw [h.goal] at hgoal
  simpa [goalRule] using hgoal

theorem isNonTerminal_eq (h : Renumbers p g g') : g'.isNonTerminal = g.isNonTerminal := by
  funext s
  rw [Bool.eq_iff_iff, isNonTerminal_iff, isNonTerminal_iff]
  simp only [h.mem_rules_iff]

theorem terminals_eq (h : Renumbers p g g') : g'.terminals = g.terminals := by
  refine Std.ExtTreeSet.ext_mem fun s => ?_
  simp only [mem_terminals, h.isNonTerminal_eq, h.mem_rules_iff]

theorem rewrites (h : Renumbers p g g') {u v : List Symbol} (huv : g.Rewrites u v) :
    g'.Rewrites u v := by
  obtain ⟨before, after, hq⟩ := huv
  exact .intro before after (h.mem_rules hq)

theorem derives_eq (h : Renumbers p g g') : g'.Derives = g.Derives := by
  funext u v
  exact propext ⟨fun hd => hd.lift id fun _ _ => h.symm.rewrites,
    fun hd => hd.lift id fun _ _ => h.rewrites⟩

/-! ### Lookahead sets -/

theorem vanishing_eq (h : Renumbers p g g') : g'.vanishing = g.vanishing := by
  refine Std.ExtTreeSet.ext_mem fun s => ?_
  rw [mem_vanishing, mem_vanishing, h.derives_eq]

theorem firstSets_eq (h : Renumbers p g g') : g'.firstSets = g.firstSets := by
  refine SymbolSets.ext_of (fun s => ?_) fun s t => ?_
  · rw [g'.firstSets_keyed s, g.firstSets_keyed s, h.terminals_eq, h.isNonTerminal_eq]
  · rw [mem_firstSets_of, mem_firstSets_of, Begins, Begins, h.terminals_eq, h.derives_eq]

theorem followSets_eq (h : Renumbers p g g') :
    g'.followSets g'.firstSets = g.followSets g.firstSets := by
  refine SymbolSets.ext_of (fun s => ?_) fun s t => ?_
  · rw [g'.followSets_keyed s, g.followSets_keyed s, h.isNonTerminal_eq]
  · rw [mem_followSets, mem_followSets, and_congr_right follows_iff, and_congr_right follows_iff,
      h.isNonTerminal_eq, h.terminals_eq, h.derives_eq]

theorem lookahead_eq (h : Renumbers p g g') : Lookahead.ofGrammar g' = Lookahead.ofGrammar g := by
  rw [Lookahead.ofGrammar, Lookahead.ofGrammar, h.vanishing_eq, h.followSets_eq, h.firstSets_eq]

end Grammar.Renumbers

/-! ### Items with other numbers -/

/-- The item with the new number of its production. -/
def Item.renumber (p : Equiv.Perm Nat) (i : Item) : Item :=
  ⟨p i.rule, i.marker⟩

theorem Item.renumber_injective (p : Equiv.Perm Nat) : Function.Injective (renumber p) := by
  rintro ⟨r, m⟩ ⟨q, k⟩ h
  simpa [renumber] using h

/-- The items of a set with the new numbers of their productions. -/
def ItemSet.renumber (p : Equiv.Perm Nat) (items : ItemSet) : ItemSet :=
  .ofList (items.toList.map (Item.renumber p))

namespace ItemSet

variable {p : Equiv.Perm Nat} {items : ItemSet}

theorem mem_renumber {j : Item} :
    j ∈ renumber p items ↔ ∃ i ∈ items, i.renumber p = j := by
  simp [renumber]

theorem renumber_mem_renumber {i : Item} : i.renumber p ∈ renumber p items ↔ i ∈ items := by
  rw [mem_renumber]
  constructor
  · rintro ⟨j, hj, heq⟩
    exact Item.renumber_injective p heq ▸ hj
  · exact fun hi => ⟨i, hi, rfl⟩

theorem renumber_injective (p : Equiv.Perm Nat) : Function.Injective (renumber p) := by
  intro s t h
  refine Std.ExtTreeSet.ext_mem fun i => ?_
  rw [← renumber_mem_renumber (p := p), h, renumber_mem_renumber]

end ItemSet

namespace Grammar.Renumbers

open ItemSet (mem_renumber renumber_mem_renumber)

variable {p : Equiv.Perm Nat} {g g' : Grammar} {items : ItemSet}

theorem scanned?_renumber (h : Renumbers p g g') (i : Item) :
    g'.scanned? (i.renumber p) = g.scanned? i := by
  rw [scanned?, scanned?, Item.renumber, h.rule]

theorem mem_closure_renumber (h : Renumbers p g g') {i : Item} (hi : g.InClosure items i) :
    g'.InClosure (items.renumber p) (i.renumber p) := by
  induction hi with
  | base hi => exact .base (renumber_mem_renumber.mpr hi)
  | @predict i r q _ hs hr ih =>
      exact .predict ih ((h.scanned?_renumber i).trans hs) ((h.rule r).trans hr)

theorem closure_eq (h : Renumbers p g g') (items : ItemSet) :
    g'.closure (items.renumber p) = (g.closure items).renumber p := by
  refine Std.ExtTreeSet.ext_mem fun j => ?_
  rw [mem_closure, mem_renumber]
  constructor
  · intro hj
    induction hj with
    | base hj =>
        obtain ⟨i, hi, rfl⟩ := mem_renumber.mp hj
        exact ⟨i, subset_closure hi, rfl⟩
    | @predict j r q _ hs hr ih =>
        obtain ⟨i, hi, rfl⟩ := ih
        rw [h.scanned?_renumber] at hs
        refine ⟨⟨p.symm r, 0⟩, ?_, by simp [Item.renumber]⟩
        exact mem_closure.mpr (.predict (mem_closure.mp hi) hs ((h.symm.rule r).trans hr))
  · rintro ⟨i, hi, rfl⟩
    exact h.mem_closure_renumber (mem_closure.mp hi)

theorem advanceOver_eq (h : Renumbers p g g') (items : ItemSet) (s : Symbol) :
    g'.advanceOver (items.renumber p) s = (g.advanceOver items s).renumber p := by
  refine Std.ExtTreeSet.ext_mem fun j => ?_
  rw [mem_advanceOver, mem_renumber]
  constructor
  · rintro ⟨k, hk, hs, rfl⟩
    obtain ⟨i, hi, rfl⟩ := mem_renumber.mp hk
    rw [h.scanned?_renumber] at hs
    exact ⟨i.advance, mem_advanceOver.mpr ⟨i, hi, hs, rfl⟩, rfl⟩
  · rintro ⟨k, hk, rfl⟩
    obtain ⟨i, hi, hs, rfl⟩ := mem_advanceOver.mp hk
    exact ⟨i.renumber p, renumber_mem_renumber.mpr hi, (h.scanned?_renumber i).trans hs, rfl⟩

theorem goto_eq (h : Renumbers p g g') (items : ItemSet) (s : Symbol) :
    g'.goto (items.renumber p) s = (g.goto items s).renumber p := by
  rw [goto, h.advanceOver_eq, h.closure_eq, goto]

theorem scannedSet_eq (h : Renumbers p g g') (items : ItemSet) :
    g'.scannedSet (items.renumber p) = g.scannedSet items := by
  refine Std.ExtTreeSet.ext_mem fun s => ?_
  rw [mem_scannedSet, mem_scannedSet]
  constructor
  · rintro ⟨j, hj, hs⟩
    obtain ⟨i, hi, rfl⟩ := mem_renumber.mp hj
    exact ⟨i, hi, (h.scanned?_renumber i).symm.trans hs⟩
  · rintro ⟨i, hi, hs⟩
    exact ⟨i.renumber p, renumber_mem_renumber.mpr hi, (h.scanned?_renumber i).trans hs⟩

/-- The scanned symbols are followed in the same order. -/
theorem scannedSymbols_eq (h : Renumbers p g g') (items : ItemSet) :
    g'.scannedSymbols (items.renumber p) = g.scannedSymbols items := by
  simp only [scannedSymbols, h.scannedSet_eq, h.start_eq, h.isNonTerminal_eq]

end Grammar.Renumbers

end ShiftReduce
