import ShiftReduce.Proofs.Table.Content

/-!
# ShiftReduce.Proofs.Table.Report

**What a recorded conflict says about its cell.** A conflict is recorded together with the action
that its two actions leave in the cell. Later insertions may put another one there, so the record is
about the cell at that moment: `Table.History.mem_conflicts_iff` finds the moment of every record,
and the action that it names is the preferred one of the actions up to then.

In a generated table this is also the action of the finished cell, with one exception
(`Generation.conflict_kept_iff`). If the items of a state bring two reductions before a shift, the
conflict of the reductions names the first of them, and the cell ends with the shift. The conflict
of that shift is then recorded as well, so every cell with conflicts has a record that names its
action.
-/

namespace ShiftReduce

namespace Action

variable {actions later : List Action} {kept : Action}

theorem isReduce_iff {action : Action} : action.isReduce = true ↔ ∃ r, action = .reduce r := by
  refine ⟨exists_of_isReduce, fun h => ?_⟩
  obtain ⟨r, rfl⟩ := h
  rfl

/-- Later actions other than accept matter only to a reduction, which gives way to a shift. -/
theorem preferred_append (h : preferred actions = some kept) (haccept : .accept ∉ later) :
    preferred (actions ++ later) =
      if kept.isReduce then (later.find? isShift).or (some kept) else some kept := by
  have hnone : later.find? (· == .accept) = none := by
    rw [List.find?_eq_none]
    intro action hmem hequal
    obtain rfl : action = .accept := by simpa using hequal
    exact haccept hmem
  rw [preferred] at h
  simp only [preferred, List.find?_append, hnone, Option.or_none]
  rcases Option.or_eq_some_iff.mp h with hfound | ⟨hfound, h⟩
  · obtain rfl : kept = .accept := by simpa using List.find?_some hfound
    simp [hfound, isReduce]
  · rcases Option.or_eq_some_iff.mp h with hshift | ⟨hshift, hreduce⟩
    · obtain ⟨m, rfl⟩ := exists_of_isShift (List.find?_some hshift)
      simp [hfound, hshift, isReduce]
    · have hkept : kept.isReduce = true := List.find?_some hreduce
      simp [hfound, hshift, hreduce, hkept]

/-- A reduction stays only where there is no shift. -/
theorem shift_notMem_of_preferred (h : preferred actions = some kept)
    (hreduce : kept.isReduce = true) (m : Nat) : .shift m ∉ actions := by
  intro hmem
  obtain ⟨r, rfl⟩ := exists_of_isReduce hreduce
  have haccept : .accept ∉ actions := by
    intro hin
    simp [preferred_of_accept_mem hin] at h
  obtain ⟨k, -, hk⟩ := preferred_of_shift_mem haccept hmem
  simp [hk] at h

/-- The preferred action stays unless it is a reduction and a shift comes. -/
theorem preferred_append_eq_iff (h : preferred actions = some kept) (haccept : .accept ∉ later) :
    preferred (actions ++ later) = some kept ↔
      ¬(kept.isReduce = true ∧ ∃ m, .shift m ∈ actions ++ later) := by
  rw [preferred_append h haccept]
  by_cases hreduce : kept.isReduce = true
  · rw [if_pos hreduce]
    have hnot := shift_notMem_of_preferred h hreduce
    obtain ⟨r, rfl⟩ := exists_of_isReduce hreduce
    cases hfind : later.find? isShift with
    | none =>
        rw [Option.none_or]
        refine iff_of_true rfl fun hboth => ?_
        obtain ⟨-, m, hm⟩ := hboth
        rcases List.mem_append.mp hm with hm | hm
        · exact hnot m hm
        · simpa [isShift] using List.find?_eq_none.mp hfind _ hm
    | some found =>
        obtain ⟨m, rfl⟩ := exists_of_isShift (List.find?_some hfind)
        have hm : .shift m ∈ actions ++ later :=
          List.mem_append_right _ (List.mem_of_find?_eq_some hfind)
        exact iff_of_false (by simp) fun hno => hno ⟨hreduce, m, hm⟩
  · rw [if_neg hreduce]
    exact iff_of_true rfl fun hno => hreduce hno.1

end Action

/-! ### The moment of a record -/

namespace Table

variable {t t' : Table} {es : List Entry} {c : Conflict} {e : Entry}

/-- An action of a cell stands in an entry. -/
theorem exists_entry_of_cellActions {n : Nat} {s : Symbol} {earlier later : List Action}
    {x : Action} (h : cellActions es n s = earlier ++ x :: later) :
    ∃ before after, es = before ++ ⟨n, s, x⟩ :: after ∧ cellActions before n s = earlier := by
  obtain ⟨front, rest, rfl, hfront, hrest⟩ := List.filterMap_eq_append_iff.mp h
  obtain ⟨skipped, e, after, rfl, hskipped, he, -⟩ := List.filterMap_eq_cons_iff.mp hrest
  obtain ⟨⟨rfl, rfl⟩, hx⟩ := Option.ite_none_right_eq_some.mp he
  obtain rfl := Option.some.inj hx
  refine ⟨front ++ skipped, after, by simp, ?_⟩
  have hnil : cellActions skipped e.row e.lookahead = [] := List.filterMap_eq_nil_iff.mpr hskipped
  rw [cellActions_append, hnil, List.append_nil]
  exact hfront

/-- The record of an insertion is about its cell, and names what the insertion leaves there. -/
theorem Entry.clash?_eq_some {old : Option Action} (h : e.clash? old = some c) :
    c.state = e.row ∧ c.lookahead = e.lookahead ∧ c.kept = settled old e.action := by
  obtain ⟨action, rfl, h⟩ := Option.bind_eq_some_iff.mp h
  obtain ⟨clash, -, rfl⟩ := Option.map_eq_some_iff.mp h
  exact ⟨rfl, rfl, rfl⟩

/-- A conflict was there before, or it is the clash of an insertion with what the insertions before
it had left in its cell. -/
theorem History.mem_conflicts_iff (h : t.History es t') :
    c ∈ t'.conflicts.toList ↔ c ∈ t.conflicts.toList ∨ ∃ before e after,
      es = before ++ e :: after ∧ e.clash? (Action.cellAfter (t.action? e.row e.lookahead)
        (cellActions before e.row e.lookahead)) = some c := by
  induction h with
  | nil => simp
  | @cons t t₁ t' first rest head _ ih =>
      -- what the later insertions find in a cell includes what the first one left there
      have hcell : ∀ (before : List Entry) (n : Nat) (s : Symbol),
          Action.cellAfter (t₁.action? n s) (cellActions before n s) =
            Action.cellAfter (t.action? n s) (cellActions (first :: before) n s) := by
        intro before n s
        rw [head.action, cellActions_cons]
        by_cases hsame : n = first.row ∧ s = first.lookahead
        · rw [if_pos hsame, if_pos hsame]
          rfl
        · rw [if_neg hsame, if_neg hsame]
      rw [ih, head.conflicts, List.mem_append, Option.mem_toList, or_assoc]
      refine or_congr_right ⟨fun h => ?_, fun h => ?_⟩
      · rcases h with hfirst | ⟨before, e, after, rfl, hclash⟩
        · exact ⟨[], first, rest, rfl, hfirst⟩
        · exact ⟨first :: before, e, after, rfl, by rw [← hcell]; exact hclash⟩
      · obtain ⟨before, e, after, hes, hclash⟩ := h
        cases before with
        | nil =>
            obtain ⟨rfl, rfl⟩ := List.cons.inj hes
            exact Or.inl hclash
        | cons _ before =>
            obtain ⟨rfl, rfl⟩ := List.cons.inj hes
            exact Or.inr ⟨before, e, after, rfl, by rw [hcell]; exact hclash⟩

/-! ### Generated tables -/

section Build

variable {g : Grammar} {a : Automaton} {reduceOn : Production → List Symbol} {mode : Mode}
  {lookahead : Option Lookahead} {n : Nat} {s : Symbol}

/-- The start item calls for nothing, since it scans a non-terminal. -/
theorem itemAction?_goal : itemAction? g a reduceOn n s ⟨0, 0⟩ = none := by
  have hscanned : g.scanned? ⟨0, 0⟩ = some g.start := rfl
  have haccepting : g.isAccepting ⟨0, 0⟩ = false := not_isAccepting_of_scanned? hscanned
  have hterminal : g.isTerminal g.start = false := by
    rw [Bool.eq_false_iff]
    intro h
    rcases Grammar.isTerminal_iff.mp h with h | h
    · have hnon := g.isNonTerminal_start
      rw [h, g.isNonTerminal_endMark] at hnon
      cases hnon
    · have hnon := (Grammar.mem_terminals.mp h).1
      rw [g.isNonTerminal_start] at hnon
      cases hnon
  simp [itemAction?, haccepting, hscanned, hterminal]

/-- No item before the accepting one calls for anything. -/
theorem itemAction?_ne_accept_of_lt {i j : Item} (hi : g.IsItem i) (hj : g.IsItem j)
    (hlt : compare i j = .lt) {x : Action} (hx : itemAction? g a reduceOn n s i = some x) :
    itemAction? g a reduceOn n s j ≠ some .accept := by
  intro haccept
  have hj' : j = ⟨0, 1⟩ := by
    rcases itemAction?_cases haccept with ⟨-, hacc, -⟩ | ⟨m, hm, -⟩ | ⟨hr, -⟩
    · exact (isAccepting_iff hj).mp hacc
    · cases hm
    · cases hr
  subst hj'
  obtain ⟨r, m⟩ := i
  obtain rfl : r = 0 := Nat.le_zero.mp (Item.rule_le_of_lt hlt)
  obtain ⟨p, hp, hle⟩ := hi
  obtain rfl : g.goalRule = p := Option.some.inj hp
  have hm : m ≤ 1 := hle
  have hne : m ≠ 1 := fun heq => Item.ne_of_lt hlt (heq ▸ rfl)
  obtain rfl : m = 0 := by omega
  rw [itemAction?_goal] at hx
  cases hx

/-- Accept is entered into a cell before everything else. -/
theorem accept_first (h : a.Canonical g) (hnodup : ∀ p, (reduceOn p).Nodup) (n : Nat) (s : Symbol) :
    (cellActions (tableEntries g a reduceOn) n s).Pairwise fun _ later => later ≠ .accept := by
  cases hn : a.states[n]? with
  | none =>
      refine List.Pairwise.imp_of_mem (fun {x y} hx _ _ => ?_) (pairwise_cellActions h hnodup n s)
      obtain ⟨items, hitems⟩ := exists_state_of_mem_cellActions h hx
      simp [hn] at hitems
  | some items =>
      rw [cellActions_tableEntries hnodup hn, List.pairwise_filterMap]
      refine Std.ExtTreeSet.ordered_toList.imp_of_mem fun {i j} hi hj hlt x hx y hy haccept => ?_
      rw [haccept] at hy
      exact itemAction?_ne_accept_of_lt (h.proper hn i (Std.ExtTreeSet.mem_toList.mp hi))
        (h.proper hn j (Std.ExtTreeSet.mem_toList.mp hj)) hlt hx hy

/-- A conflict is recorded where an action of a cell clashes with the preferred one of the actions
before it. -/
theorem mem_conflicts_of_build (h : a.Canonical g)
    (hlook : reductionLookaheads g mode lookahead = .ok reduceOn)
    (hbuild : build g a mode lookahead = .ok t) :
    c ∈ t.conflicts.toList ↔ ∃ earlier x later,
      cellActions (tableEntries g a reduceOn) c.state c.lookahead = earlier ++ x :: later ∧
      Entry.clash? ⟨c.state, c.lookahead, x⟩ (Action.preferred earlier) = some c := by
  obtain ⟨t₁, t', hbuild', hhistory, hsame, -⟩ := build_history h hlook
  obtain rfl : t' = t := Except.ok.inj (hbuild'.symm.trans hbuild)
  -- a cell without errors holds the preferred one of its actions, also on the way
  have hpreferred : ∀ {before rest : List Entry} (n : Nat) (s : Symbol),
      tableEntries g a reduceOn = before ++ rest →
      Action.cellAfter ((empty mode a.states.size).action? n s) (cellActions before n s) =
        Action.preferred (cellActions before n s) := by
    intro before rest n s hes
    have herror : .error ∉ cellActions (tableEntries g a reduceOn) n s :=
      error_notMem_cellActions h
    rw [hes, cellActions_append] at herror
    rw [action?_empty]
    exact Action.cellAfter_eq_preferred fun hmem => herror (List.mem_append_left _ hmem)
  rw [hsame.conflicts, hhistory.mem_conflicts_iff]
  constructor
  · intro h
    rcases h with hc | ⟨before, e, after, hes, hclash⟩
    · simp [empty] at hc
    · obtain ⟨hstate, hlookahead, -⟩ := Entry.clash?_eq_some hclash
      rw [hpreferred _ _ hes] at hclash
      refine ⟨cellActions before e.row e.lookahead, e.action,
        cellActions after e.row e.lookahead, ?_, ?_⟩
      · rw [hstate, hlookahead, hes, cellActions_append, cellActions_cons, if_pos ⟨rfl, rfl⟩]
      · rw [hstate, hlookahead]
        exact hclash
  · intro h
    obtain ⟨earlier, x, later, hcell, hclash⟩ := h
    obtain ⟨before, after, hes, rfl⟩ := exists_entry_of_cellActions hcell
    exact Or.inr ⟨before, ⟨c.state, c.lookahead, x⟩, after, hes, by rwa [hpreferred _ _ hes]⟩

/-- A record names the preferred one of the actions of its cell up to the one that clashed. Accept
does not come after that. -/
theorem exists_split_of_conflict (h : a.Canonical g) (hnodup : ∀ p, (reduceOn p).Nodup)
    (hlook : reductionLookaheads g mode lookahead = .ok reduceOn)
    (hbuild : build g a mode lookahead = .ok t) (hc : c ∈ t.conflicts.toList) :
    ∃ upto later : List Action,
      cellActions (tableEntries g a reduceOn) c.state c.lookahead = upto ++ later ∧
      Action.preferred upto = some c.kept ∧ .accept ∉ later := by
  obtain ⟨earlier, x, later, hcell, hclash⟩ := (mem_conflicts_of_build h hlook hbuild).mp hc
  refine ⟨earlier ++ [x], later, by simp [hcell], ?_, ?_⟩
  · have herror : .error ∉ cellActions (tableEntries g a reduceOn) c.state c.lookahead :=
      error_notMem_cellActions h
    have hx : x ≠ .error := fun heq => herror (by simp [hcell, heq])
    rw [(Entry.clash?_eq_some hclash).2.2, Action.settled_preferred hx]
  · intro haccept
    have hfirst := accept_first h hnodup c.state c.lookahead
    rw [hcell] at hfirst
    exact List.rel_of_pairwise_cons (List.pairwise_append.mp hfirst).2.1 haccept rfl

/-- Where a shift comes after a record that names a reduction, the first such shift is recorded, and
it is what the cell holds. -/
theorem exists_conflict_of_shift (h : a.Canonical g)
    (hlook : reductionLookaheads g mode lookahead = .ok reduceOn)
    (hbuild : build g a mode lookahead = .ok t) {upto later : List Action} {r m : Nat}
    (hcell : cellActions (tableEntries g a reduceOn) n s = upto ++ later)
    (hkept : Action.preferred upto = some (.reduce r)) (haccept : .accept ∉ later)
    (hm : later.find? Action.isShift = some (.shift m)) :
    ⟨.shiftReduce, n, s, .shift m, .reduce r, .shift m⟩ ∈ t.conflicts.toList := by
  obtain ⟨-, between, rest, rfl, hbetween⟩ := List.find?_eq_some_iff_append.mp hm
  refine (mem_conflicts_of_build h hlook hbuild).mpr
    ⟨upto ++ between, .shift m, rest, by simp [hcell], ?_⟩
  -- no shift has come yet, so the reduction is still there
  have hnone : between.find? Action.isShift = none := by
    rw [List.find?_eq_none]
    intro action hmem
    simpa using hbetween action hmem
  rw [Action.preferred_append hkept (fun hmem => haccept (List.mem_append_left _ hmem)), hnone]
  rfl

/-- Some record of a cell with records names the action that the table has there. -/
theorem exists_conflict_of_action? (h : a.Canonical g) (hnodup : ∀ p, (reduceOn p).Nodup)
    (hlook : reductionLookaheads g mode lookahead = .ok reduceOn)
    (hbuild : build g a mode lookahead = .ok t) (hc : c ∈ t.conflicts.toList) :
    ∃ last ∈ t.conflicts.toList, last.state = c.state ∧ last.lookahead = c.lookahead ∧
      t.action? c.state c.lookahead = some last.kept := by
  obtain ⟨upto, later, hcell, hkept, haccept⟩ := exists_split_of_conflict h hnodup hlook hbuild hc
  rw [action?_of_build h hlook hbuild, hcell, Action.preferred_append hkept haccept]
  by_cases hreduce : c.kept.isReduce = true
  · obtain ⟨r, hr⟩ := Action.exists_of_isReduce hreduce
    rw [if_pos hreduce]
    cases hfind : later.find? Action.isShift with
    | none => exact ⟨c, hc, rfl, rfl, rfl⟩
    | some found =>
        obtain ⟨m, rfl⟩ := Action.exists_of_isShift (List.find?_some hfind)
        have hlast := exists_conflict_of_shift h hlook hbuild hcell (hr ▸ hkept) haccept hfind
        exact ⟨_, hlast, rfl, rfl, rfl⟩
  · rw [if_neg hreduce]
    exact ⟨c, hc, rfl, rfl, rfl⟩

/-- A cell is asked to shift if and only if its state scans the lookahead. -/
theorem exists_shift_mem_iff (h : a.Canonical g) {items : ItemSet}
    (hn : a.states[n]? = some items) :
    (∃ m, .shift m ∈ cellActions (tableEntries g a (g.reduceOn mode)) n s) ↔
      s ∈ g.terminals ∧ ∃ i ∈ items, g.scanned? i = some s := by
  simp only [mem_cellActions_iff h hn, CallsFor, Std.ExtTreeSet.mem_toList]
  constructor
  · intro hshift
    obtain ⟨m, hscans, -⟩ := hshift
    exact hscans
  · intro hscans
    obtain ⟨i, hi, hs⟩ := hscans.2
    obtain ⟨m, hm, -⟩ := h.exists_target? hn hi hs
    exact ⟨m, hscans, hm⟩

end Build

end Table

/-! ### The report of a generation -/

namespace Generation

/-- A recorded conflict names the action that the table has in its cell, unless the action is a
reduction and the state also scans the lookahead. In either case some conflict of the cell names the
action that is there. -/
theorem conflict_kept_iff (g : Grammar) (mode : Mode) (log : LogOptions) :
    ∃ gen text, Generation.ofGrammar g mode log = .ok (gen, text) ∧
      ∀ (kind : ConflictKind), ∀ c ∈ gen.table.conflictsOf kind,
        ∃ items, gen.automaton.states[c.state]? = some items ∧
          (gen.table.action? c.state c.lookahead = some c.kept ↔
            ¬((∃ r, c.kept = .reduce r) ∧ c.lookahead ∈ g.terminals ∧
              ∃ i ∈ items, g.scanned? i = some c.lookahead)) ∧
          ∃ last ∈ gen.table.conflicts, last.state = c.state ∧ last.lookahead = c.lookahead ∧
            gen.table.action? c.state c.lookahead = some last.kept := by
  obtain ⟨gen, text, hgen, hdescribes⟩ := exists_ofGrammar g mode log
  have hcanonical := hdescribes.canonical
  have hlook := Table.reductionLookaheads_eq g mode
  have hbuild := (ofGrammar_inv hgen).2
  refine ⟨gen, text, hgen, fun kind c hkind => ?_⟩
  have hc : c ∈ gen.table.conflicts.toList := (List.mem_filter.mp hkind).1
  obtain ⟨upto, later, hcell, hkept, haccept⟩ :=
    Table.exists_split_of_conflict hcanonical (g.nodup_reduceOn mode) hlook hbuild hc
  have hmem : c.kept ∈ upto ++ later := List.mem_append_left _ (Action.mem_of_preferred hkept)
  obtain ⟨items, hitems⟩ :=
    Table.exists_state_of_mem_cellActions hcanonical (hcell ▸ hmem)
  obtain ⟨last, hlast, hstate, hlookahead, haction⟩ :=
    Table.exists_conflict_of_action? hcanonical (g.nodup_reduceOn mode) hlook hbuild hc
  refine ⟨items, hitems, ?_, last, Array.mem_toList_iff.mp hlast, hstate, hlookahead, haction⟩
  rw [Table.action?_of_build hcanonical hlook hbuild, hcell,
    Action.preferred_append_eq_iff hkept haccept, Action.isReduce_iff, ← hcell,
    Table.exists_shift_mem_iff hcanonical hitems]

/-- The productions `S -> x`, `S -> A`, `A -> x` and `A -> x y`. After `x` two reductions compete
with the shift of `y`. -/
def threefold : Grammar :=
  ⟨[⟨"S", ["x"]⟩, ⟨"S", ["A"]⟩, ⟨"A", ["x"]⟩, ⟨"A", ["x", "y"]⟩], by simp, by decide⟩

/-- The conflict of the two reductions on `y` names the first of them, and the table shifts. -/
theorem conflict_kept_stale :
    ∃ gen text, Generation.ofGrammar threefold .lr0 .none = .ok (gen, text) ∧
      ⟨.reduceReduce, 3, ("y" : Text), .reduce 1, .reduce 3, .reduce 1⟩ ∈
        gen.table.conflictsOf .reduceReduce ∧
      gen.table.action? 3 ("y" : Text) = some (.shift 4) := by
  obtain ⟨gen, text, hgen, -⟩ := exists_ofGrammar threefold .lr0 .none
  have hreport : (Generation.ofGrammar threefold .lr0 .none).toOption.map (fun q =>
      (decide (⟨.reduceReduce, 3, ("y" : Text), .reduce 1, .reduce 3, .reduce 1⟩ ∈
        q.1.table.conflictsOf .reduceReduce), q.1.table.action? 3 ("y" : Text))) =
      some (true, some (.shift 4)) := by decide +kernel
  simp only [hgen, Except.toOption, Option.map_some, Option.some.injEq, Prod.mk.injEq,
    decide_eq_true_eq] at hreport
  exact ⟨gen, text, hgen, hreport⟩

end Generation

end ShiftReduce
