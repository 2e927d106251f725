import ShiftReduce.Proofs.Automaton

/-!
# ShiftReduce.Proofs.ViablePrefix

**A state holds exactly the items that are valid for the strings that lead to it.** An item is valid
for a string of symbols if the string can be on the stack when the part of the production before the
marker has been recognised. `Grammar.Valid` says so inductively, without states.

`Automaton.Canonical.mem_iff_valid` is the meaning of the automaton: whichever string is followed
from state 0, the state that is reached holds its valid items and no others. What a table entry of a
state stands for is then read off a string. `Grammar.Valid.split` gives back the symbols before the
marker, `Grammar.Valid.start_cases` says where the start of a production comes from, and
`Grammar.Valid.eq_start` that only the start symbol leads to acceptance.
-/

namespace ShiftReduce

/-- The items that are valid for a string of symbols. -/
inductive Grammar.Valid (g : Grammar) : List Symbol → Item → Prop
  /-- The goal production is about to start. -/
  | goal : g.Valid [] ⟨0, 0⟩
  /-- The symbol after the marker is added to the string. -/
  | advance {γ : List Symbol} {i : Item} {s : Symbol} (h : g.Valid γ i)
      (hs : g.scanned? i = some s) : g.Valid (γ ++ [s]) i.advance
  /-- A production of the symbol after the marker is about to start. -/
  | predict {γ : List Symbol} {i : Item} {r : Nat} {p : Production} (h : g.Valid γ i)
      (hs : g.scanned? i = some p.lhs) (hr : g.rule? r = some p) : g.Valid γ ⟨r, 0⟩

/-- The state that a string leads to from state 0. -/
def Automaton.follow? (a : Automaton) (γ : List Symbol) : Option Nat :=
  γ.foldlM a.target? 0

theorem Automaton.follow?_append_singleton (a : Automaton) (γ : List Symbol) (s : Symbol) :
    a.follow? (γ ++ [s]) = (a.follow? γ).bind (a.target? · s) := by
  simp [follow?, List.foldlM_append]

namespace Grammar

variable {g : Grammar}

/-! ### Validity and the operations on sets of items -/

/-- The items of state 0 are valid for the empty string. -/
theorem mem_initialItems_iff {i : Item} :
    i ∈ Construction.initialItems g ↔ g.Valid [] i := by
  rw [Construction.initialItems, mem_closure]
  constructor
  · intro h
    induction h with
    | @base i h =>
        obtain rfl : ⟨0, 0⟩ = i := by simpa using h
        exact .goal
    | predict _ hs hr ih => exact .predict ih hs hr
  · generalize hγ : ([] : List Symbol) = γ
    intro h
    induction h with
    | goal => exact .base (by simp)
    | advance => simp at hγ
    | predict _ hs hr ih => exact .predict (ih hγ) hs hr

/-- Goto adds a symbol to the string. -/
theorem mem_goto_iff {γ : List Symbol} {items : ItemSet} (h : ∀ i, i ∈ items ↔ g.Valid γ i)
    {s : Symbol} {i : Item} : i ∈ g.goto items s ↔ g.Valid (γ ++ [s]) i := by
  rw [mem_goto]
  constructor
  · intro hi
    induction hi with
    | base hi =>
        obtain ⟨j, hj, hs, rfl⟩ := mem_advanceOver.mp hi
        exact .advance ((h j).mp hj) hs
    | predict _ hs hr ih => exact .predict ih hs hr
  · generalize hδ : γ ++ [s] = δ
    intro hi
    induction hi with
    | goal => simp at hδ
    | @advance γ' j s' hj hs =>
        obtain ⟨rfl, hs'⟩ := List.append_inj' hδ rfl
        cases hs'
        exact .base (mem_advanceOver.mpr ⟨j, (h j).mpr hj, hs, rfl⟩)
    | predict _ hs hr ih => exact .predict (ih hδ) hs hr

/-! ### What a valid item says about the string -/

namespace Valid

/-- The string of a valid item ends with the symbols before the marker. Without them the start of
the same production is valid. -/
theorem split {γ : List Symbol} {i : Item} (h : g.Valid γ i) {p : Production}
    (hp : g.rule? i.rule = some p) :
    ∃ δ, γ = δ ++ p.rhs.take i.marker ∧ g.Valid δ ⟨i.rule, 0⟩ := by
  induction h with
  | goal => exact ⟨[], rfl, .goal⟩
  | @advance γ i s _ hs ih =>
      obtain ⟨δ, rfl, hδ⟩ := ih hp
      obtain ⟨p', hp', hget⟩ := scanned?_eq_some.mp hs
      obtain rfl : p' = p := Option.some.inj (hp'.symm.trans hp)
      exact ⟨δ, by simp [Item.advance, List.take_add_one, hget], hδ⟩
  | @predict γ i r p' h hs hr _ => exact ⟨γ, by simp, .predict h hs hr⟩

/-- The start of a production is valid because its left-hand side is scanned. Only the goal
production needs no such reason. -/
theorem start_cases {γ : List Symbol} {r : Nat} (h : g.Valid γ ⟨r, 0⟩) :
    r = 0 ∧ γ = [] ∨
      ∃ i p, g.Valid γ i ∧ g.scanned? i = some p.lhs ∧ g.rule? r = some p := by
  generalize hi : (⟨r, 0⟩ : Item) = i at h
  cases h with
  | goal => exact Or.inl ⟨congrArg Item.rule hi, rfl⟩
  | advance => simp [Item.advance] at hi
  | @predict _ j q p hj hs hq =>
      obtain rfl : r = q := congrArg Item.rule hi
      exact Or.inr ⟨j, p, hj, hs, hq⟩

/-- The goal production starts at the empty string only. -/
theorem eq_nil {γ : List Symbol} (h : g.Valid γ ⟨0, 0⟩) : γ = [] := by
  rcases h.start_cases with ⟨-, hγ⟩ | ⟨i, p, -, hs, hp⟩
  · exact hγ
  · cases Option.some.inj (g.rule?_zero.symm.trans hp)
    exact absurd hs scanned?_ne_goal

/-- The goal production is finished after the start symbol only. -/
theorem eq_start {γ : List Symbol} (h : g.Valid γ ⟨0, 1⟩) : γ = [g.start] := by
  obtain ⟨δ, rfl, hδ⟩ := h.split g.rule?_zero
  rw [hδ.eq_nil]
  rfl

end Valid

/-- The start symbol is scanned at the empty string. -/
theorem scanned?_goal (g : Grammar) : g.scanned? ⟨0, 0⟩ = some g.start := rfl

end Grammar

/-! ### The meaning of the states -/

namespace Automaton.Canonical

variable {g : Grammar} {a : Automaton}

/-- The state that a string leads to holds the valid items of the string. -/
theorem mem_iff_valid (h : a.Canonical g) {γ : List Symbol} :
    ∀ {n : Nat}, a.follow? γ = some n →
      ∃ items, a.states[n]? = some items ∧ ∀ i, i ∈ items ↔ g.Valid γ i := by
  induction γ using List.reverseRecOn with
  | nil =>
      intro n hn
      obtain rfl : 0 = n := by simpa [follow?] using hn
      exact ⟨_, h.initial, fun i => Grammar.mem_initialItems_iff⟩
  | append_singleton γ s ih =>
      intro n hn
      rw [follow?_append_singleton, Option.bind_eq_some_iff] at hn
      obtain ⟨m, hm, ht⟩ := hn
      obtain ⟨items, hitems, hvalid⟩ := ih hm
      obtain ⟨items', hitems', -, hn⟩ := h.target?_eq_some.mp ht
      obtain rfl : items = items' := by simpa [hitems] using hitems'
      exact ⟨_, hn, fun i => Grammar.mem_goto_iff hvalid⟩

/-- Where a valid item scans a symbol, the string can be followed by it. -/
theorem exists_follow? (h : a.Canonical g) {γ : List Symbol} {n : Nat} (hn : a.follow? γ = some n)
    {i : Item} (hi : g.Valid γ i) {s : Symbol} (hs : g.scanned? i = some s) :
    ∃ m, a.target? n s = some m ∧ a.follow? (γ ++ [s]) = some m := by
  obtain ⟨items, hitems, hvalid⟩ := h.mem_iff_valid hn
  have hscan : s ∈ g.scannedSymbols items :=
    Grammar.mem_scannedSymbols.mpr ⟨i, (hvalid i).mpr hi, hs⟩
  obtain ⟨m, hm⟩ := h.exists_transition hitems hscan
  have ht := h.target?_iff_mem.mpr hm
  exact ⟨m, ht, by rw [follow?_append_singleton, hn]; exact ht⟩

end Automaton.Canonical

end ShiftReduce
