import ShiftReduce.Proofs.Closure

/-!
# ShiftReduce.Proofs.Closure.Worklist

**The closure from a stack of pending items.** The rounds of `Grammar.closure` look at a whole set
again and again. `Grammar.explore` looks at every item once: it takes an item off a stack, and puts
on the stack those of its predictions that the set did not hold yet. This is how a closure is
computed item by item, and how it comes to name the last unknown production of a set.

The search ends because each turn either finds the start of a production that was missing, or leaves
the stack shorter. It ends with the closure because an item that has left the stack has all its
predictions in the set (`Exploring.settled`), so that with an empty stack the set is closed.
-/

namespace ShiftReduce

namespace Grammar

variable {g : Grammar} {items found : ItemSet} {pending : List Item}

/-! ### One turn -/

/-- The items at the start of the productions of the scanned symbol, in the order of their
numbers. -/
def predictions (g : Grammar) (i : Item) : List Item :=
  match g.scanned? i with
  | none => []
  | some s => (g.rulesOf s).map (⟨·, 0⟩)

/-- Adds an item to the set. If the set did not hold it, it has still to be looked at. -/
def discover (work : List Item × ItemSet) (i : Item) : List Item × ItemSet :=
  if i ∈ work.2 then work else (i :: work.1, work.2.insert i)

theorem mem_predictions {i j : Item} :
    j ∈ g.predictions i ↔
      ∃ r p, g.scanned? i = some p.lhs ∧ g.rule? r = some p ∧ j = ⟨r, 0⟩ := by
  cases hs : g.scanned? i with
  | none => simp [predictions, hs]
  | some s =>
      simp only [predictions, hs, List.mem_map, mem_rulesOf, Option.some.injEq]
      constructor
      · rintro ⟨r, ⟨p, hr, rfl⟩, rfl⟩
        exact ⟨r, p, rfl, hr, rfl⟩
      · rintro ⟨r, p, rfl, hr, rfl⟩
        exact ⟨r, ⟨p, hr, rfl⟩, rfl⟩

theorem mem_discover {work : List Item × ItemSet} {i j : Item} :
    j ∈ (discover work i).2 ↔ j ∈ work.2 ∨ j = i := by
  unfold discover
  split
  · rename_i hold
    exact ⟨Or.inl, fun h => h.elim id fun hj => hj ▸ hold⟩
  · simp only [Std.ExtTreeSet.mem_insert, Std.LawfulEqCmp.compare_eq_iff_eq]
    exact or_comm.trans (or_congr_right eq_comm)

theorem pending_discover {work : List Item × ItemSet} {i j : Item} :
    j ∈ (discover work i).1 ↔ j ∈ work.1 ∨ (j = i ∧ i ∉ work.2) := by
  unfold discover
  split <;> simp_all [or_comm]

/-- The set afterwards holds what it held and what was discovered. -/
theorem mem_foldl_discover {new : List Item} {work : List Item × ItemSet} {j : Item} :
    j ∈ (new.foldl discover work).2 ↔ j ∈ work.2 ∨ j ∈ new := by
  induction new generalizing work with
  | nil => simp
  | cons i new ih => rw [List.foldl_cons, ih, mem_discover, or_assoc, List.mem_cons]

/-- What the set did not hold is on the stack afterwards, and so is what was there. -/
theorem pending_foldl_discover {new : List Item} {work : List Item × ItemSet} {j : Item} :
    j ∈ (new.foldl discover work).1 ↔ j ∈ work.1 ∨ (j ∈ new ∧ j ∉ work.2) := by
  induction new generalizing work with
  | nil => simp
  | cons i new ih =>
      rw [List.foldl_cons, ih, pending_discover, mem_discover, List.mem_cons]
      by_cases hji : j = i
      · subst hji
        tauto
      · tauto

/-- A discovered prediction is the start of a production that the set did not hold, or nothing has
changed. -/
theorem discover_grows {i j : Item} (hj : j ∈ g.predictions i) (work : List Item × ItemSet) :
    Grows (fun work => g.startCount work.2) work (discover work j) := by
  obtain ⟨r, p, -, hr, rfl⟩ := mem_predictions.mp hj
  by_cases hold : (⟨r, 0⟩ : Item) ∈ work.2
  · exact Or.inl (if_pos hold)
  · exact Or.inr (Grows.card_filter _ (fun q _ hq => mem_discover.mpr (Or.inl hq))
      (Finset.mem_range.mpr (lt_of_rule? hr)) (mem_discover.mpr (Or.inr rfl)) hold)

/-- A turn finds the start of a production, or leaves the stack shorter and the set as it was. -/
theorem foldl_discover_grows (i : Item) (work : List Item × ItemSet) :
    Grows (fun work => g.startCount work.2) work ((g.predictions i).foldl discover work) :=
  Grows.foldl (P := fun _ => True) (fun _ _ _ h => h) (fun _ hj x _ => discover_grows hj x) trivial

/-! ### The search -/

/-- Looks at the items of a stack, the first of the list being on top, and at all that they lead to.
An item without a production ends the search. -/
def explore (g : Grammar) : List Item → ItemSet → Except Missing ItemSet
  | [], found => .ok found
  | i :: pending, found =>
    match g.rule i.rule with
    | .error missing => .error missing
    | .ok _ =>
      let work := (g.predictions i).foldl discover (pending, found)
      g.explore work.1 work.2
termination_by pending found => (g.rules.length - g.startCount found, pending.length)
decreasing_by
  have hbound := g.startCount_le ((g.predictions i).foldl discover (pending, found)).2
  rcases g.foldl_discover_grows i (pending, found) with hsame | hmore
  · rw [hsame]
    exact Prod.Lex.right _ (Nat.lt_succ_self _)
  · exact Prod.Lex.left _ _ (Nat.sub_lt_sub_left (Nat.lt_of_lt_of_le hmore hbound) hmore)

/-- What holds whenever the search looks at the next item. -/
structure Exploring (g : Grammar) (items : ItemSet) (pending : List Item) (found : ItemSet) :
    Prop where
  /-- The given items are found. -/
  base : ∀ i ∈ items, i ∈ found
  /-- Only items of the closure are found. -/
  sound : ∀ i ∈ found, g.InClosure items i
  /-- What is on the stack has been found. -/
  pending_found : ∀ i ∈ pending, i ∈ found
  /-- The predictions of an item that is no longer on the stack are found. -/
  settled : ∀ i ∈ found, i ∈ pending ∨ ∀ j ∈ g.predictions i, j ∈ found

namespace Exploring

theorem start (items : ItemSet) : Exploring g items items.toList.reverse items where
  base _ h := h
  sound _ h := .base h
  pending_found i h := by simpa using h
  settled i h := Or.inl (by simpa using h)

/-- A turn keeps the invariant: the item on top is settled, and what it leads to is pending. -/
theorem turn {i : Item} (h : Exploring g items (i :: pending) found) :
    Exploring g items ((g.predictions i).foldl discover (pending, found)).1
      ((g.predictions i).foldl discover (pending, found)).2 where
  base j hj := mem_foldl_discover.mpr (Or.inl (h.base j hj))
  sound j hj := by
    rcases mem_foldl_discover.mp hj with hj | hj
    · exact h.sound j hj
    · obtain ⟨r, p, hs, hr, rfl⟩ := mem_predictions.mp hj
      exact .predict (h.sound i (h.pending_found i (by simp))) hs hr
  pending_found j hj := by
    rcases pending_foldl_discover.mp hj with hj | ⟨hj, -⟩
    · exact mem_foldl_discover.mpr (Or.inl (h.pending_found j (by simp [hj])))
    · exact mem_foldl_discover.mpr (Or.inr hj)
  settled j hj := by
    by_cases hold : j ∈ found
    · rcases h.settled j hold with hpending | hdone
      · rcases List.mem_cons.mp hpending with rfl | hpending
        · exact Or.inr fun k hk => mem_foldl_discover.mpr (Or.inr hk)
        · exact Or.inl (pending_foldl_discover.mpr (Or.inl hpending))
      · exact Or.inr fun k hk => mem_foldl_discover.mpr (Or.inl (hdone k hk))
    · have hnew := (mem_foldl_discover.mp hj).resolve_left hold
      exact Or.inl (pending_foldl_discover.mpr (Or.inr ⟨hnew, hold⟩))

/-- With nothing left to look at, the closure has been found. -/
theorem eq_closure (h : Exploring g items [] found) : found = g.closure items := by
  have hclosed : g.IsClosed found := by
    intro i hi r p hr hs
    exact (h.settled i hi).resolve_left (by simp) _ (mem_predictions.mpr ⟨r, p, hs, hr, rfl⟩)
  exact Std.ExtTreeSet.ext_mem fun i =>
    ⟨fun hi => mem_closure.mpr (h.sound i hi), closure_least h.base hclosed i⟩

end Exploring

/-- The check asks for one production after the other. -/
theorem checkItems_cons (i : Item) (listed : List Item) :
    g.checkItems (i :: listed) = g.rule i.rule >>= fun _ => g.checkItems listed := by
  cases hrule : g.rule? i.rule with
  | none => simp [checkItems, rule, hrule, bind, Except.bind]
  | some p => simp [checkItems, rule, hrule]

/-- What a turn puts on the stack has productions, so the first unknown one stays the same. -/
theorem checkItems_turn (i : Item) (work : List Item × ItemSet) :
    g.checkItems ((g.predictions i).foldl discover work).1 = g.checkItems work.1 := by
  refine Grows.foldl_invariant
    (P := fun later : List Item × ItemSet => g.checkItems later.1 = g.checkItems work.1) ?_ rfl
  intro j hj later hlater
  obtain ⟨r, p, -, hr, rfl⟩ := mem_predictions.mp hj
  unfold discover
  split
  · exact hlater
  · rw [checkItems_cons, rule_eq_ok hr, ok_bind, hlater]

/-- From any point of the search, the first unknown production on the stack is refused; without one
the search ends with the closure. -/
theorem explore_eq (h : Exploring g items pending found) :
    g.explore pending found = (g.checkItems pending).map fun _ => g.closure items := by
  induction pending, found using explore.induct g with
  | case1 found =>
      rw [explore, h.eq_closure]
      rfl
  | case2 i pending found missing hrule =>
      rw [explore, hrule, checkItems_cons, hrule]
      rfl
  | case3 i pending found p hrule work ih =>
      rw [explore, hrule, checkItems_cons, hrule, ok_bind, ← checkItems_turn i (pending, found)]
      exact ih h.turn

/-- The search from the items of a set, the last of them on top, is the closure of the set. -/
theorem explore_eq_closureOf (g : Grammar) (items : ItemSet) :
    g.explore items.toList.reverse items = g.closureOf items := by
  rw [explore_eq (Exploring.start items), closureOf]
  cases g.checkItems items.toList.reverse <;> rfl

/-! ### Closure and goto of any set -/

/-- What closure and goto make of a set of items. The closure is what the search from the items ends
with, the last item being looked at first. If every item names a production, the rounds of
predictions end by themselves too, with the least closed set that holds the items; so the closure of
a closure is itself, and a larger set has a larger closure. The goto on a symbol is then the closure
of the items that scan the symbol, moved over it, and it is empty exactly if there are none. If some
item names no production, both refuse the set: the closure names the largest such production, and
the goto the smallest. -/
theorem closureOf_exact (g : Grammar) (items : ItemSet) :
    g.explore items.toList.reverse items = g.closureOf items ∧
    (g.Known items → ∃ closed : ItemSet,
      g.closureOf items = .ok closed ∧ Rounds g.predict items closed ∧
      (∀ i ∈ items, i ∈ closed) ∧ g.IsClosed closed ∧
      (∀ other : ItemSet, (∀ i ∈ items, i ∈ other) → g.IsClosed other →
        ∀ i ∈ closed, i ∈ other) ∧
      g.closureOf closed = .ok closed ∧
      (∀ larger : ItemSet, g.Known larger → (∀ i ∈ items, i ∈ larger) →
        ∃ closed' : ItemSet, g.closureOf larger = .ok closed' ∧ ∀ i ∈ closed, i ∈ closed') ∧
      ∀ s : Symbol, ∃ moved next : ItemSet,
        (∀ i, i ∈ moved ↔ ∃ j ∈ items, g.scanned? j = some s ∧ i = ⟨j.rule, j.marker + 1⟩) ∧
        g.closureOf moved = .ok next ∧ g.gotoOf items s = .ok next ∧
        (next = ∅ ↔ ∀ i ∈ items, g.scanned? i ≠ some s)) ∧
    ((∃ i ∈ items, g.rule? i.rule = none) →
      (∃ i ∈ items, g.rule? i.rule = none ∧ (∀ j ∈ items, j.rule ≤ i.rule) ∧
        g.closureOf items = .error (.rule i.rule)) ∧
      ∃ i ∈ items, g.rule? i.rule = none ∧
        (∀ j ∈ items, g.rule? j.rule = none → i.rule ≤ j.rule) ∧
        ∀ s : Symbol, g.gotoOf items s = .error (.rule i.rule)) := by
  refine ⟨explore_eq_closureOf g items, fun hknown => ?_,
    fun hunknown => ⟨closureOf_unknown hunknown, gotoOf_unknown hunknown⟩⟩
  refine ⟨g.closure items, hknown.closureOf, rounds_closure items, fun _ => subset_closure,
    isClosed_closure items, fun _ => closure_least, ?_, fun larger hlarger hsub => ?_, fun s => ?_⟩
  · rw [hknown.closure.closureOf, closure_eq_self (isClosed_closure items)]
  · exact ⟨g.closure larger, hlarger.closureOf, closure_mono hsub⟩
  · refine ⟨g.advanceOver items s, g.goto items s, fun i => mem_advanceOver,
      (hknown.advanceOver s).closureOf, hknown.gotoOf s, ?_⟩
    rw [goto_eq_empty_iff, mem_scannedSymbols]
    exact not_exists.trans (forall_congr' fun i => not_and)

end Grammar

end ShiftReduce
