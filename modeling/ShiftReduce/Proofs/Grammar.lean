import ShiftReduce.Grammar

/-!
# ShiftReduce.Proofs.Grammar

What the proof fields of a `Grammar` say about its symbols and numbered productions.

The reserved texts stay apart from the declared symbols: `S'` is expanded by production 0 alone and
stands on no right-hand side, and neither the end mark nor the empty mark is a terminal. Every
symbol of a right-hand side is a terminal or a non-terminal, and never both. The later modules use
these facts and do not look at `Symbol.fault?` again.
-/

namespace ShiftReduce

@[simp] theorem ok_bind {ε α β : Type} (x : α) (f : α → Except ε β) :
    (Except.ok x >>= f) = f x := rfl

/-- A computation in two parts succeeds if both parts do. -/
theorem bind_eq_ok {ε α β : Type} {x : Except ε α} {f : α → Except ε β} {y : β} :
    (x >>= f) = .ok y ↔ ∃ a, x = .ok a ∧ f a = .ok y := by
  cases x with
  | error e => simp [bind, Except.bind]
  | ok a => simp

/-- What every step of a fold preserves holds of the result. -/
theorem foldlM_invariant {ε α β : Type} {P : β → Prop} {f : β → α → Except ε β} {l : List α}
    (step : ∀ {x : β} {a : α} {y : β}, P x → f x a = .ok y → P y) :
    ∀ {x y : β}, P x → l.foldlM f x = .ok y → P y := by
  induction l with
  | nil =>
      intro x y hx h
      cases h
      exact hx
  | cons a l ih =>
      intro x y hx h
      rw [List.foldlM_cons] at h
      obtain ⟨mid, hmid, htail⟩ := bind_eq_ok.mp h
      exact ih (step hx hmid) htail

/-- Two runs over one list stay related if every step keeps them so. -/
theorem foldlM_related {ε α β : Type} {R : β → β → Prop} {f f' : β → α → Except ε β} {l : List α}
    (step : ∀ {x x' : β} {a : α} {y y' : β}, R x x' → f x a = .ok y → f' x' a = .ok y' → R y y') :
    ∀ {x x' y y' : β}, R x x' → l.foldlM f x = .ok y → l.foldlM f' x' = .ok y' → R y y' := by
  induction l with
  | nil =>
      intro x x' y y' hx h h'
      cases h
      cases h'
      exact hx
  | cons a l ih =>
      intro x x' y y' hx h h'
      rw [List.foldlM_cons] at h h'
      obtain ⟨mid, hmid, htail⟩ := bind_eq_ok.mp h
      obtain ⟨mid', hmid', htail'⟩ := bind_eq_ok.mp h'
      exact ih (step hx hmid hmid') htail htail'

/-- An ordered set lists no member twice. -/
theorem nodup_toList {α : Type} [Ord α] [Std.TransOrd α] [Std.LawfulEqOrd α]
    (s : Std.ExtTreeSet α) : s.toList.Nodup := by
  refine List.Pairwise.imp ?_ (Std.ExtTreeSet.distinct_toList (t := s))
  rintro a b h rfl
  exact h Std.ReflCmp.compare_self

namespace Symbol

/-- A faultless symbol is not empty and not reserved. -/
theorem fault?_eq_none {s : Symbol} :
    s.fault? = none ↔ s ≠ [] ∧ s ≠ endMark ∧ s ≠ goal ∧ s ≠ emptyMark := by
  unfold fault?
  split
  · simp_all
  · split
    · simp_all
    · split
      · simp_all
      · split <;> simp_all

end Symbol

namespace Grammar

variable {g : Grammar}

/-! ### Accepted lists -/

theorem firstFault?_eq_none {rules : List Production} (h : ∀ p ∈ rules, p.fault? = none) :
    ∀ {n : Nat}, firstFault? n rules = none := by
  induction rules with
  | nil => exact rfl
  | cons p rules ih =>
      intro n
      rw [firstFault?, h p (by simp)]
      exact ih fun q hq => h q (by simp [hq])

/-- A list of productions is accepted as the grammar that declares them. -/
theorem ofRules_eq_ok {rules : List Production} : ofRules rules = .ok g ↔ g.declared = rules := by
  constructor
  · intro h
    rw [ofRules] at h
    split at h
    · cases h
    · split at h
      · cases h
      · cases h
        rfl
  · rintro rfl
    rw [ofRules, dif_neg g.nonempty]
    split
    · rename_i found
      simp [firstFault?_eq_none g.faultless] at found
    · rfl

/-! ### Numbered productions -/

@[simp] theorem rule?_zero (g : Grammar) : g.rule? 0 = some g.goalRule := rfl

theorem mem_rules_of_rule? {r : Nat} {p : Production} (h : g.rule? r = some p) : p ∈ g.rules :=
  List.mem_of_getElem? h

theorem exists_rule?_of_mem {p : Production} (h : p ∈ g.rules) : ∃ r, g.rule? r = some p :=
  List.mem_iff_getElem?.mp h

theorem lt_of_rule? {r : Nat} {p : Production} (h : g.rule? r = some p) : r < g.rules.length :=
  (List.getElem?_eq_some_iff.mp h).1

theorem mem_rules_iff {p : Production} : p ∈ g.rules ↔ p = g.goalRule ∨ p ∈ g.declared := by
  simp [rules]

theorem mem_rulesOf {r : Nat} {s : Symbol} :
    r ∈ g.rulesOf s ↔ ∃ p, g.rule? r = some p ∧ p.lhs = s := by
  simp [rulesOf, rule?, List.mem_zipIdx_iff_getElem?, and_comm]

theorem rule_eq_ok {r : Nat} {p : Production} (h : g.rule? r = some p) : g.rule r = .ok p := by
  simp [rule, h]

/-! ### Reserved symbols -/

/-- The symbols of a declared production are faultless. -/
theorem fault?_of_mem_declared {p : Production} (hp : p ∈ g.declared) {s : Symbol}
    (hs : s ∈ p.lhs :: p.rhs) : s.fault? = none := by
  have h := g.faultless p hp
  rw [Production.fault?, List.findSome?_eq_none_iff] at h
  exact h s hs

theorem start_mem_lhs (g : Grammar) : ∃ p ∈ g.declared, p.lhs = g.start :=
  ⟨g.declared.head g.nonempty, List.head_mem g.nonempty, rfl⟩

theorem start_fault? (g : Grammar) : g.start.fault? = none := by
  obtain ⟨p, hp, hs⟩ := g.start_mem_lhs
  exact hs ▸ fault?_of_mem_declared hp (by simp)

/-- Right-hand sides hold no empty or reserved symbol, that of the goal production included. -/
theorem fault?_of_mem_rhs {p : Production} (hp : p ∈ g.rules) {s : Symbol} (hs : s ∈ p.rhs) :
    s.fault? = none := by
  rcases mem_rules_iff.mp hp with rfl | hp
  · obtain rfl : s = g.start := by simpa [goalRule] using hs
    exact g.start_fault?
  · exact fault?_of_mem_declared hp (List.mem_cons_of_mem _ hs)

/-- The goal symbol is on no right-hand side. -/
theorem goal_notMem_rhs {p : Production} (hp : p ∈ g.rules) : Symbol.goal ∉ p.rhs :=
  fun h => (Symbol.fault?_eq_none.mp (fault?_of_mem_rhs hp h)).2.2.1 rfl

theorem start_ne_goal (g : Grammar) : g.start ≠ Symbol.goal :=
  (Symbol.fault?_eq_none.mp g.start_fault?).2.2.1

/-! ### Terminals and non-terminals -/

theorem isNonTerminal_iff {s : Symbol} : g.isNonTerminal s = true ↔ ∃ p ∈ g.rules, p.lhs = s := by
  simp [isNonTerminal]

theorem mem_nonTerminals {s : Symbol} : s ∈ g.nonTerminals ↔ g.isNonTerminal s = true := by
  simp [nonTerminals, isNonTerminal]

theorem mem_terminals {s : Symbol} :
    s ∈ g.terminals ↔ g.isNonTerminal s = false ∧ ∃ p ∈ g.rules, s ∈ p.rhs := by
  have hdefined : g.nonTerminals.contains s = g.isNonTerminal s :=
    Bool.eq_iff_iff.mpr (Std.ExtTreeSet.contains_iff_mem.trans mem_nonTerminals)
  simp only [terminals, Std.ExtTreeSet.mem_ofList, List.contains_iff_mem, List.mem_filter,
    List.mem_flatMap, hdefined, Bool.not_eq_true']
  exact And.comm

theorem isNonTerminal_lhs {p : Production} (hp : p ∈ g.rules) : g.isNonTerminal p.lhs = true :=
  isNonTerminal_iff.mpr ⟨p, hp, rfl⟩

theorem isNonTerminal_start (g : Grammar) : g.isNonTerminal g.start = true := by
  obtain ⟨p, hp, hs⟩ := g.start_mem_lhs
  exact hs ▸ isNonTerminal_lhs (mem_rules_iff.mpr (Or.inr hp))

theorem terminal_fault? {s : Symbol} (h : s ∈ g.terminals) : s.fault? = none := by
  obtain ⟨-, p, hp, hs⟩ := mem_terminals.mp h
  exact fault?_of_mem_rhs hp hs

theorem endMark_notMem_terminals (g : Grammar) : Symbol.endMark ∉ g.terminals :=
  fun h => (Symbol.fault?_eq_none.mp (terminal_fault? h)).2.1 rfl

/-- No production expands the end mark. -/
theorem isNonTerminal_endMark (g : Grammar) : g.isNonTerminal Symbol.endMark = false := by
  rw [Bool.eq_false_iff]
  intro h
  obtain ⟨p, hp, hlhs⟩ := isNonTerminal_iff.mp h
  rcases mem_rules_iff.mp hp with rfl | hp
  · have hne : Symbol.goal ≠ Symbol.endMark := by decide
    exact hne hlhs
  · have hfault := fault?_of_mem_declared hp List.mem_cons_self
    exact (Symbol.fault?_eq_none.mp hfault).2.1 hlhs

theorem emptyMark_notMem_terminals (g : Grammar) : Symbol.emptyMark ∉ g.terminals :=
  fun h => (Symbol.fault?_eq_none.mp (terminal_fault? h)).2.2.2 rfl

/-- What a table may shift or reduce on: a terminal or the end mark. -/
theorem isTerminal_iff {s : Symbol} :
    g.isTerminal s = true ↔ s = Symbol.endMark ∨ s ∈ g.terminals := by
  simp [isTerminal, mem_terminals]

theorem mem_actionColumns {s : Symbol} :
    s ∈ g.actionColumns ↔ s ∈ g.terminals ∨ s = Symbol.endMark := by
  simp [actionColumns]

/-- A scanned symbol that a table treats as terminal is one: the end mark is never scanned. -/
theorem mem_terminals_of_isTerminal {p : Production} (hp : p ∈ g.rules) {s : Symbol}
    (hs : s ∈ p.rhs) (h : g.isTerminal s = true) : s ∈ g.terminals := by
  rcases isTerminal_iff.mp h with rfl | h
  · exact absurd rfl (Symbol.fault?_eq_none.mp (fault?_of_mem_rhs hp hs)).2.1
  · exact h

end Grammar

end ShiftReduce
