import ShiftReduce.Proofs.Generation
import ShiftReduce.Proofs.Table.Cell

/-!
# ShiftReduce.Proofs.Table.Content

**What stands in every cell of a generated table, and how many conflicts it has.** An item calls for
at most one action on a lookahead (`Table.itemAction?`), so the actions that are entered into a cell
are those of the items of its state, in the order of the items
(`Table.cellActions_tableEntries`). That order is by production, which is why

* the reductions of a cell are entered with increasing numbers, and the one that stays is the least
  (`Table.preferred_cellActions`);
* no action but a shift is entered twice (`Table.pairwise_cellActions`), so that every candidate of
  a cell but one is a conflict (`Table.countP_conflicts_of_build`).

The closed forms of the cells and of their conflicts at the end of the module do not mention the
order in which the table was filled.
-/

namespace ShiftReduce

theorem Item.ne_of_lt {i j : Item} (h : compare i j = .lt) : i ≠ j := by
  rintro rfl
  simp at h

namespace Table

variable {g : Grammar} {a : Automaton} {reduceOn : Production → List Symbol} {n : Nat} {s : Symbol}

/-! ### The action of an item on a lookahead -/

/-- The action that an item of state `n` calls for on the lookahead `s`. -/
def itemAction? (g : Grammar) (a : Automaton) (reduceOn : Production → List Symbol) (n : Nat)
    (s : Symbol) (i : Item) : Option Action :=
  if g.isAccepting i then
    if s = Symbol.endMark then some .accept else none
  else
    match g.scanned? i with
    | some x => if s = x ∧ g.isTerminal x = true then (a.target? n x).map .shift else none
    | none => (g.rule? i.rule).bind fun p => if s ∈ reduceOn p then some (.reduce i.rule) else none

theorem itemAction?_cases {i : Item} {action : Action}
    (h : itemAction? g a reduceOn n s i = some action) :
    (action = .accept ∧ g.isAccepting i = true ∧ s = Symbol.endMark) ∨
    (∃ m, action = .shift m ∧ s ∈ g.terminals ∧ a.target? n s = some m) ∨
    (action = .reduce i.rule ∧ g.scanned? i = none) := by
  rw [itemAction?] at h
  split at h
  · rename_i haccepting
    split at h
    · rename_i hs
      cases h
      exact Or.inl ⟨rfl, haccepting, hs⟩
    · cases h
  · split at h
    · rename_i x hx
      split at h
      · rename_i hs
        obtain ⟨rfl, hterminal⟩ := hs
        obtain ⟨m, hm, rfl⟩ := Option.map_eq_some_iff.mp h
        obtain ⟨p, hp, hmem⟩ := Grammar.scanned?_mem_rhs hx
        exact Or.inr (Or.inl
          ⟨m, rfl, Grammar.mem_terminals_of_isTerminal hp hmem hterminal, hm⟩)
      · cases h
    · rename_i hscanned
      obtain ⟨p, -, h⟩ := Option.bind_eq_some_iff.mp h
      split at h
      · cases h
        exact Or.inr (Or.inr ⟨rfl, hscanned⟩)
      · cases h

/-! ### The entries of a cell -/

theorem cellActions_flatMap {α : Type} (l : List α) (f : α → List Entry) :
    cellActions (l.flatMap f) n s = l.flatMap fun x => cellActions (f x) n s :=
  List.filterMap_flatMap

/-- A reduction is entered once into each of its cells. -/
theorem cellActions_reduction {lookaheads : List Symbol} (h : lookaheads.Nodup) (r : Nat) :
    cellActions (lookaheads.map fun x => ⟨n, x, .reduce r⟩) n s =
      (if s ∈ lookaheads then some (.reduce r) else none : Option Action).toList := by
  induction lookaheads with
  | nil => rfl
  | cons x rest ih =>
      obtain ⟨hx, hrest⟩ := List.nodup_cons.mp h
      rw [List.map_cons, cellActions_cons, ih hrest]
      by_cases hs : s = x
      · subst hs
        simp [hx]
      · simp [hs]

theorem cellActions_itemEntries (hnodup : ∀ p, (reduceOn p).Nodup) (i : Item) :
    cellActions (itemEntries g a reduceOn n i) n s = (itemAction? g a reduceOn n s i).toList := by
  rw [itemEntries, itemAction?]
  by_cases haccepting : g.isAccepting i = true
  · rw [if_pos haccepting, if_pos haccepting, cellActions_cons]
    by_cases hs : s = Symbol.endMark <;> simp [hs, cellActions]
  · rw [if_neg haccepting, if_neg haccepting]
    cases g.scanned? i with
    | some x =>
        dsimp only
        by_cases hterminal : g.isTerminal x = true
        · cases a.target? n x with
          | none => simp [cellActions]
          | some m =>
              simp only [hterminal, if_true, Option.toList_some, List.map_cons, List.map_nil,
                cellActions_cons, true_and, and_true, Option.map_some]
              by_cases hs : s = x <;> simp [hs, cellActions]
        · simp [hterminal, cellActions]
    | none =>
        cases g.rule? i.rule with
        | none => rfl
        | some p =>
            simp only [Option.toList_some, List.flatMap_cons, List.flatMap_nil, List.append_nil,
              Option.bind_some]
            exact cellActions_reduction (hnodup p) i.rule

theorem row_of_mem_itemEntries {i : Item} {e : Entry} (h : e ∈ itemEntries g a reduceOn n i) :
    e.row = n := by
  rw [itemEntries] at h
  split at h
  · obtain rfl := List.mem_singleton.mp h
    rfl
  · split at h
    · split at h
      · obtain ⟨m, -, rfl⟩ := List.mem_map.mp h
        rfl
      · simp at h
    · obtain ⟨p, -, h⟩ := List.mem_flatMap.mp h
      obtain ⟨x, -, rfl⟩ := List.mem_map.mp h
      rfl

/-- A state enters nothing into the cells of another. -/
theorem cellActions_stateEntries_of_ne {m : Nat} (hne : m ≠ n) (items : ItemSet) :
    cellActions (stateEntries g a reduceOn m items) n s = [] := by
  refine List.eq_nil_iff_forall_not_mem.mpr fun action hmem => hne ?_
  obtain ⟨i, -, he⟩ := List.mem_flatMap.mp (mem_cellActions.mp hmem)
  exact (row_of_mem_itemEntries he).symm

/-- Of the numbered parts of a list, only one counts if the others are empty. -/
theorem flatMap_zipIdx_of_getElem? {α β : Type} {f : α × Nat → List β} {x : α} {l : List α} :
    ∀ {n k : Nat}, l[n]? = some x → (∀ y m, m ≠ n + k → f (y, m) = []) →
      (l.zipIdx k).flatMap f = f (x, n + k) := by
  induction l with
  | nil => simp
  | cons y l ih =>
      intro n k hn hf
      rw [List.zipIdx_cons, List.flatMap_cons]
      cases n with
      | zero =>
          obtain rfl : y = x := by simpa using hn
          have hrest : (l.zipIdx (k + 1)).flatMap f = [] := by
            refine List.flatMap_eq_nil_iff.mpr fun q hq => hf q.1 q.2 ?_
            have := List.le_snd_of_mem_zipIdx hq
            omega
          rw [hrest, List.append_nil, Nat.zero_add]
      | succ n =>
          rw [hf y k (by omega),
            ih (k := k + 1) (by simpa using hn) fun z m hm => hf z m (by omega)]
          simp [Nat.add_assoc, Nat.add_comm 1]

/-- A cell gets the actions of the items of its state, in the order of the items. -/
theorem cellActions_tableEntries (hnodup : ∀ p, (reduceOn p).Nodup) {items : ItemSet}
    (hn : a.states[n]? = some items) :
    cellActions (tableEntries g a reduceOn) n s =
      items.toList.filterMap (itemAction? g a reduceOn n s) := by
  have hstate : (a.states.toList.zipIdx.flatMap fun q =>
      cellActions (stateEntries g a reduceOn q.2 q.1) n s) =
        cellActions (stateEntries g a reduceOn n items) n s :=
    flatMap_zipIdx_of_getElem? (by simpa using hn)
      fun y m hm => cellActions_stateEntries_of_ne (by simpa using hm) y
  rw [tableEntries, cellActions_flatMap, hstate, stateEntries, cellActions_flatMap,
    List.filterMap_eq_flatMap_toList]
  simp only [cellActions_itemEntries hnodup]

/-! ### Their order -/

/-- Only the cells of a state get actions. -/
theorem exists_state_of_mem_cellActions (h : a.Canonical g) {action : Action}
    (hmem : action ∈ cellActions (tableEntries g a reduceOn) n s) :
    ∃ items, a.states[n]? = some items := by
  obtain ⟨items, hn, -⟩ := (mem_tableEntries h).mp (mem_cellActions.mp hmem)
  exact ⟨items, hn⟩

theorem error_notMem_cellActions (h : a.Canonical g) :
    .error ∉ cellActions (tableEntries g a reduceOn) n s := by
  intro hmem
  obtain ⟨items, -, hcandidate⟩ := (mem_tableEntries h).mp (mem_cellActions.mp hmem)
  cases hcandidate

/-- What two items of a state call for on one lookahead. -/
theorem mayPrecede_of_lt {i j : Item} (hi : g.IsItem i) (hj : g.IsItem j)
    (hlt : compare i j = .lt) {x y : Action} (hx : itemAction? g a reduceOn n s i = some x)
    (hy : itemAction? g a reduceOn n s j = some y) : x.MayPrecede y := by
  have hne := Item.ne_of_lt hlt
  rcases itemAction?_cases hx with ⟨rfl, hacci, hend⟩ | ⟨m, rfl, hterm, hm⟩ | ⟨rfl, hsi⟩ <;>
    rcases itemAction?_cases hy with ⟨rfl, haccj, hend'⟩ | ⟨m', rfl, hterm', hm'⟩ | ⟨rfl, hsj⟩
  · -- there is one accepting item
    exact hne (((isAccepting_iff hi).mp hacci).trans ((isAccepting_iff hj).mp haccj).symm)
  · exact g.endMark_notMem_terminals (hend ▸ hterm')
  · trivial
  · exact g.endMark_notMem_terminals (hend' ▸ hterm)
  · exact Option.some.inj (hm.symm.trans hm')
  · trivial
  · trivial
  · trivial
  · -- a production has one finished item
    exact Nat.lt_of_le_of_ne (Item.rule_le_of_lt hlt) (rule_ne_of_finished hi hj hne hsi hsj)

theorem pairwise_cellActions (h : a.Canonical g) (hnodup : ∀ p, (reduceOn p).Nodup) (n : Nat)
    (s : Symbol) :
    (cellActions (tableEntries g a reduceOn) n s).Pairwise Action.MayPrecede := by
  cases hn : a.states[n]? with
  | none =>
      have hnil : cellActions (tableEntries g a reduceOn) n s = [] := by
        refine List.eq_nil_iff_forall_not_mem.mpr fun action hmem => ?_
        obtain ⟨items, hitems⟩ := exists_state_of_mem_cellActions h hmem
        simp [hn] at hitems
      rw [hnil]
      exact .nil
  | some items =>
      rw [cellActions_tableEntries hnodup hn, List.pairwise_filterMap]
      refine Std.ExtTreeSet.ordered_toList.imp_of_mem fun {i j} hi hj hlt x hx y hy => ?_
      exact mayPrecede_of_lt (h.proper hn i (Std.ExtTreeSet.mem_toList.mp hi))
        (h.proper hn j (Std.ExtTreeSet.mem_toList.mp hj)) hlt hx hy

/-! ### Whole tables -/

section Build

variable {mode : Mode} {lookahead : Option Lookahead} {t : Table}

/-- A cell holds the preferred one of its actions. -/
theorem action?_of_build (h : a.Canonical g)
    (hlook : reductionLookaheads g mode lookahead = .ok reduceOn)
    (hbuild : build g a mode lookahead = .ok t) (n : Nat) (s : Symbol) :
    t.action? n s = Action.preferred (cellActions (tableEntries g a reduceOn) n s) := by
  obtain ⟨t₁, t', hbuild', hhistory, hsame, -⟩ := build_history h hlook
  obtain rfl : t' = t := Except.ok.inj (hbuild'.symm.trans hbuild)
  rw [hsame.action, hhistory.action?_eq, action?_empty,
    Action.cellAfter_eq_preferred (error_notMem_cellActions h)]

/-- Every candidate of a cell but one is a conflict. -/
theorem countP_conflicts_of_build (h : a.Canonical g) (hnodup : ∀ p, (reduceOn p).Nodup)
    (hlook : reductionLookaheads g mode lookahead = .ok reduceOn)
    (hbuild : build g a mode lookahead = .ok t) (n : Nat) (s : Symbol) :
    t.conflicts.toList.countP (Conflict.inCell n s) =
      (cellActions (tableEntries g a reduceOn) n s).toFinset.card - 1 := by
  obtain ⟨t₁, t', hbuild', hhistory, hsame, -⟩ := build_history h hlook
  obtain rfl : t' = t := Except.ok.inj (hbuild'.symm.trans hbuild)
  rw [hsame.conflicts, hhistory.countP_conflicts, action?_empty,
    Action.clashCount_eq_card (pairwise_cellActions h hnodup n s) (error_notMem_cellActions h)]
  simp [empty]

end Build

end Table

/-! ### What the items of a state call for -/

namespace Grammar

/-- The lookaheads on which a finished production may be reduced: the terminals and the end mark, or
FOLLOW of the left-hand side. -/
def IsLookahead (g : Grammar) (mode : Mode) (p : Production) (s : Symbol) : Prop :=
  match mode with
  | .lr0 => s ∈ g.terminals ∨ s = Symbol.endMark
  | .slr1 => s ∈ (Lookahead.ofGrammar g).follow.of p.lhs

instance (g : Grammar) (mode : Mode) (p : Production) (s : Symbol) :
    Decidable (g.IsLookahead mode p s) :=
  match mode with
  | .lr0 => inferInstanceAs (Decidable (_ ∨ _))
  | .slr1 => inferInstanceAs (Decidable (_ ∈ _))

/-- A declared production is finished in a set of items and may be reduced on a lookahead. -/
def Reduces (g : Grammar) (mode : Mode) (items : ItemSet) (s : Symbol) (r : Nat) : Prop :=
  1 ≤ r ∧ ∃ p ∈ g.rule? r, ⟨r, p.rhs.length⟩ ∈ items ∧ g.IsLookahead mode p s

instance (g : Grammar) (mode : Mode) (items : ItemSet) (s : Symbol) :
    DecidablePred (g.Reduces mode items s) :=
  fun _ => inferInstanceAs (Decidable (_ ∧ _))

/-- The least number of such a production. -/
def leastReduction? (g : Grammar) (mode : Mode) (items : ItemSet) (s : Symbol) : Option Nat :=
  (List.range g.rules.length).find? fun r => g.Reduces mode items s r

variable {g : Grammar} {mode : Mode} {items : ItemSet} {s : Symbol}

theorem mem_reduceOn {p : Production} : s ∈ g.reduceOn mode p ↔ g.IsLookahead mode p s := by
  cases mode with
  | lr0 => exact mem_actionColumns
  | slr1 => exact Std.ExtTreeSet.mem_toList

/-- No lookahead of a production is listed twice. -/
theorem nodup_reduceOn (g : Grammar) (mode : Mode) (p : Production) :
    (g.reduceOn mode p).Nodup := by
  cases mode with
  | slr1 => exact nodup_toList _
  | lr0 =>
      refine List.nodup_append'.mpr ⟨nodup_toList _, List.nodup_singleton _, ?_⟩
      intro s hs hend
      obtain rfl := List.mem_singleton.mp hend
      exact g.endMark_notMem_terminals (Std.ExtTreeSet.mem_toList.mp hs)

theorem leastReduction?_spec {r : Nat} (h : g.leastReduction? mode items s = some r) :
    g.Reduces mode items s r ∧ ∀ q, g.Reduces mode items s q → r ≤ q := by
  obtain ⟨hr, -, hless⟩ := List.find?_range_eq_some.mp h
  refine ⟨of_decide_eq_true hr, fun q hq => Nat.le_of_not_lt fun hlt => ?_⟩
  simpa [hq] using hless q hlt

theorem not_reduces_of_leastReduction? (h : g.leastReduction? mode items s = none) (r : Nat) :
    ¬g.Reduces mode items s r := by
  intro hr
  obtain ⟨-, p, hp, -⟩ := id hr
  exact List.find?_eq_none.mp h r (List.mem_range.mpr (lt_of_rule? hp)) (decide_eq_true hr)

end Grammar

namespace Table

open Automaton (mem_of_target?)

variable {g : Grammar} {a : Automaton} {mode : Mode} {n : Nat} {items : ItemSet} {s : Symbol}

/-- What the items of state `n` call for on a lookahead: accept if the goal production is finished,
a shift along the transition if the lookahead is scanned, and every reduction. -/
def CallsFor (g : Grammar) (a : Automaton) (mode : Mode) (n : Nat) (items : ItemSet) (s : Symbol) :
    Action → Prop
  | .accept => s = Symbol.endMark ∧ ⟨0, 1⟩ ∈ items
  | .shift m =>
    (s ∈ g.terminals ∧ ∃ i ∈ items.toList, g.scanned? i = some s) ∧ ⟨n, s, m⟩ ∈ a.transitions
  | .reduce r => g.Reduces mode items s r
  | .error => False

/-- The actions that are entered into a cell are those that the items of its state call for. -/
theorem mem_cellActions_iff (h : a.Canonical g) (hn : a.states[n]? = some items) {action : Action} :
    action ∈ cellActions (tableEntries g a (g.reduceOn mode)) n s ↔
      CallsFor g a mode n items s action := by
  have hcandidate : action ∈ cellActions (tableEntries g a (g.reduceOn mode)) n s ↔
      Candidate g a (g.reduceOn mode) n items s action := by
    rw [mem_cellActions, mem_tableEntries h]
    simp [hn]
  rw [hcandidate]
  constructor
  · intro hcand
    cases hcand with
    | accept hi => exact ⟨rfl, hi⟩
    | shift hi hs ht hm =>
        exact ⟨⟨ht, _, Std.ExtTreeSet.mem_toList.mpr hi, hs⟩, mem_of_target? hm⟩
    | reduce hr hp hi hs => exact ⟨hr, _, hp, hi, Grammar.mem_reduceOn.mp hs⟩
  · intro hcalls
    cases action with
    | accept =>
        obtain ⟨rfl, hi⟩ := hcalls
        exact .accept hi
    | shift m =>
        obtain ⟨⟨ht, i, hi, hs⟩, hm⟩ := hcalls
        exact .shift (Std.ExtTreeSet.mem_toList.mp hi) hs ht (h.target?_iff_mem.mpr hm)
    | reduce r =>
        obtain ⟨hr, p, hp, hi, hs⟩ := hcalls
        exact .reduce hr hp hi (Grammar.mem_reduceOn.mpr hs)
    | error => exact hcalls.elim

/-- The preferred one of the actions of a cell, without their order. -/
theorem preferred_cellActions (h : a.Canonical g) (hn : a.states[n]? = some items) :
    Action.preferred (cellActions (tableEntries g a (g.reduceOn mode)) n s) =
      if s = Symbol.endMark ∧ ⟨0, 1⟩ ∈ items then some .accept
      else if s ∈ g.terminals ∧ ∃ i ∈ items.toList, g.scanned? i = some s then
        (a.target? n s).map .shift
      else (g.leastReduction? mode items s).map .reduce := by
  generalize hactions : cellActions (tableEntries g a (g.reduceOn mode)) n s = actions
  have hmem : ∀ {action}, action ∈ actions ↔ CallsFor g a mode n items s action :=
    fun {_} => hactions ▸ mem_cellActions_iff h hn
  by_cases haccept : s = Symbol.endMark ∧ ⟨0, 1⟩ ∈ items
  · rw [if_pos haccept]
    exact Action.preferred_of_accept_mem (hmem.mpr haccept)
  have hnoAccept : .accept ∉ actions := fun hin => haccept (hmem.mp hin)
  rw [if_neg haccept]
  by_cases hshift : s ∈ g.terminals ∧ ∃ i ∈ items.toList, g.scanned? i = some s
  · obtain ⟨i, hi, hs⟩ := hshift.2
    obtain ⟨m, ht, -⟩ := h.exists_target? hn (Std.ExtTreeSet.mem_toList.mp hi) hs
    obtain ⟨k, hk, hpreferred⟩ :=
      Action.preferred_of_shift_mem hnoAccept (hmem.mpr ⟨hshift, ht⟩)
    rw [if_pos hshift, hpreferred, h.target?_iff_mem.mpr (hmem.mp hk).2]
    rfl
  have hnoShift : ∀ m, .shift m ∉ actions := fun m hin => hshift (hmem.mp hin).1
  rw [if_neg hshift]
  cases hleast : g.leastReduction? mode items s with
  | some r =>
      obtain ⟨hr, hle⟩ := Grammar.leastReduction?_spec hleast
      exact Action.preferred_of_reduce_mem
        (hactions ▸ pairwise_cellActions h (g.nodup_reduceOn mode) n s) hnoAccept hnoShift
        (hmem.mpr hr) fun q hq => hle q (hmem.mp hq)
  | none =>
      -- no action of any kind is left
      have hnil : actions = [] := by
        refine List.eq_nil_iff_forall_not_mem.mpr fun action hin => ?_
        cases action with
        | accept => exact hnoAccept hin
        | shift m => exact hnoShift m hin
        | reduce r => exact Grammar.not_reduces_of_leastReduction? hleast r (hmem.mp hin)
        | error => exact hmem.mp hin
      rw [hnil]
      rfl

end Table

/-! ### The conflicts of a generation -/

namespace Generation

/-- The number of conflicts of a cell is one less than the number of its actions. -/
theorem conflictCount_eq {g : Grammar} {mode : Mode} {log : LogOptions} {gen : Generation}
    {text : Text} (h : Generation.ofGrammar g mode log = .ok (gen, text)) (n : Nat)
    (s : Symbol) : gen.table.conflictCount n s =
      (Table.cellActions (Table.tableEntries g gen.automaton (g.reduceOn mode)) n s).toFinset.card
        - 1 := by
  rw [Table.conflictCount, Table.countP_rowConflicts]
  exact Table.countP_conflicts_of_build (describes_of_ofGrammar h).canonical
    (g.nodup_reduceOn mode) (Table.reductionLookaheads_eq g mode) (ofGrammar_inv h).2 n s

theorem isValid_iff_conflictCount (gen : Generation) :
    gen.isValid = true ↔ ∀ n s, gen.table.conflictCount n s = 0 := by
  simp only [isValid, Table.isValid_iff_countP, Table.conflictCount, Table.countP_rowConflicts]

/-! ### Two generations -/

section Compare

variable {g g' : Grammar} {mode mode' : Mode} {log log' : LogOptions} {gen gen' : Generation}
  {text text' : Text}

/-- A cell has no more conflicts than one that has all its candidates, perhaps under other names. -/
theorem conflictCount_le_of_candidate (h : Generation.ofGrammar g mode log = .ok (gen, text))
    (h' : Generation.ofGrammar g' mode' log' = .ok (gen', text')) {f : Action → Action}
    (hf : Function.Injective f) {n : Nat} {s : Symbol}
    (hmap : ∀ {items : ItemSet} {action : Action}, gen.automaton.states[n]? = some items →
      Table.Candidate g gen.automaton (g.reduceOn mode) n items s action →
      ∃ items', gen'.automaton.states[n]? = some items' ∧
        Table.Candidate g' gen'.automaton (g'.reduceOn mode') n items' s (f action)) :
    gen.table.conflictCount n s ≤ gen'.table.conflictCount n s := by
  have hcanonical := (describes_of_ofGrammar h).canonical
  have hcanonical' := (describes_of_ofGrammar h').canonical
  rw [conflictCount_eq h, conflictCount_eq h']
  refine Nat.sub_le_sub_right (Finset.card_le_card_of_injOn f (fun action hmem => ?_) hf.injOn) 1
  simp only [Finset.mem_coe, List.mem_toFinset, Table.mem_cellActions,
    Table.mem_tableEntries hcanonical, Table.mem_tableEntries hcanonical'] at hmem ⊢
  obtain ⟨items, hn, hcandidate⟩ := hmem
  exact hmap hn hcandidate

/-- The states to go to are decided by the transitions and by what is a non-terminal. -/
theorem goto?_eq_of_transitions (h : Generation.ofGrammar g mode log = .ok (gen, text))
    (h' : Generation.ofGrammar g' mode' log' = .ok (gen', text'))
    (hsymbols : g'.isNonTerminal = g.isNonTerminal)
    (htransitions : gen'.automaton.transitions = gen.automaton.transitions) (n : Nat)
    (s : Symbol) : gen'.table.goto? n s = gen.table.goto? n s := by
  refine Option.ext fun m => ?_
  rw [(describes_of_ofGrammar h).generated.goto, (describes_of_ofGrammar h').generated.goto,
    hsymbols, Automaton.target?, Automaton.target?, htransitions]

end Compare

/-! ### The results -/

/-- Generating succeeds, and the table has in every cell what its state asks for first: accept, else
the shift along the transition, else the reduction with the least number. The states to go to are
the transitions on non-terminals. -/
theorem ofGrammar_table_content (g : Grammar) (mode : Mode) (log : LogOptions) :
    ∃ gen text, Generation.ofGrammar g mode log = .ok (gen, text) ∧
      Automaton.ofGrammar g = .ok gen.automaton ∧
      (∀ (n : Nat) (items : ItemSet), gen.automaton.states[n]? = some items →
        (∀ s : Symbol, gen.table.action? n s =
          if s = Symbol.endMark ∧ ⟨0, 1⟩ ∈ items then some .accept
          else if s ∈ g.terminals ∧ ∃ i ∈ items.toList, g.scanned? i = some s then
            (gen.automaton.target? n s).map .shift
          else (g.leastReduction? mode items s).map .reduce) ∧
        ∀ i ∈ items, ∀ s, g.scanned? i = some s →
          ∃ m, ⟨n, s, m⟩ ∈ gen.automaton.transitions ∧ gen.automaton.target? n s = some m) ∧
      ∀ (n m : Nat) (s : Symbol), gen.table.goto? n s = some m ↔
        g.isNonTerminal s = true ∧ ⟨n, s, m⟩ ∈ gen.automaton.transitions := by
  obtain ⟨gen, text, hgen, hdescribes⟩ := exists_ofGrammar g mode log
  obtain ⟨hautomaton, hbuild⟩ := ofGrammar_inv hgen
  have hcanonical := hdescribes.canonical
  refine ⟨gen, text, hgen, hautomaton, fun n items hn => ⟨fun s => ?_, fun i hi s hs => ?_⟩, ?_⟩
  · rw [Table.action?_of_build hcanonical (Table.reductionLookaheads_eq g mode) hbuild,
      Table.preferred_cellActions hcanonical hn]
  · exact hcanonical.exists_target? hn hi hs
  · intro n m s
    rw [hdescribes.generated.goto, hcanonical.target?_iff_mem]

/-- A cell of a generated table has one conflict fewer than it has candidates, so the table is valid
exactly if no cell has two of them. -/
theorem ofGrammar_conflict_count (g : Grammar) (mode : Mode) (log : LogOptions) :
    ∃ gen text, Generation.ofGrammar g mode log = .ok (gen, text) ∧
      Automaton.ofGrammar g = .ok gen.automaton ∧
      (∀ (n : Nat) (items : ItemSet), gen.automaton.states[n]? = some items → ∀ s : Symbol,
        ∃ candidates : Finset Action,
          (∀ action, action ∈ candidates ↔
            Table.CallsFor g gen.automaton mode n items s action) ∧
          (gen.table.rowConflicts .shiftReduce n).countP (·.lookahead == s) +
            (gen.table.rowConflicts .reduceReduce n).countP (·.lookahead == s) =
              candidates.card - 1) ∧
      (gen.isValid = true ↔
        ∀ (n : Nat) (items : ItemSet), gen.automaton.states[n]? = some items →
          ∀ (s : Symbol) (x y : Action),
            Table.CallsFor g gen.automaton mode n items s x →
            Table.CallsFor g gen.automaton mode n items s y → x = y) := by
  obtain ⟨gen, text, hgen, hdescribes⟩ := exists_ofGrammar g mode log
  obtain ⟨hautomaton, hbuild⟩ := ofGrammar_inv hgen
  have hcanonical := hdescribes.canonical
  have hcount := Table.countP_conflicts_of_build hcanonical (g.nodup_reduceOn mode)
    (Table.reductionLookaheads_eq g mode) hbuild
  refine ⟨gen, text, hgen, hautomaton, fun n items hn s => ?_, ?_⟩
  · refine ⟨(Table.cellActions
      (Table.tableEntries g gen.automaton (g.reduceOn mode)) n s).toFinset, fun action => ?_, ?_⟩
    · rw [List.mem_toFinset, Table.mem_cellActions_iff hcanonical hn]
    · rw [Table.countP_rowConflicts, hcount]
  · rw [isValid, Table.isValid_iff_countP]
    simp only [hcount, Nat.sub_eq_zero_iff_le, Finset.card_le_one, List.mem_toFinset]
    constructor
    · intro hone n items hn s x y hx hy
      exact hone n s x ((Table.mem_cellActions_iff hcanonical hn).mpr hx) y
        ((Table.mem_cellActions_iff hcanonical hn).mpr hy)
    · intro hone n s x hx y hy
      obtain ⟨items, hn⟩ := Table.exists_state_of_mem_cellActions hcanonical hx
      exact hone n items hn s x y ((Table.mem_cellActions_iff hcanonical hn).mp hx)
        ((Table.mem_cellActions_iff hcanonical hn).mp hy)

end Generation

end ShiftReduce
