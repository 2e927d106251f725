import ShiftReduce.Table.Build
import ShiftReduce.Proofs.Automaton
import ShiftReduce.Proofs.Table.History

/-!
# ShiftReduce.Proofs.Table.Generated

**What a generated table holds.** The items of a state call for actions: `Table.Candidate` lists
them for a cell, without saying which one wins. Filling the table is entering all candidates in the
order of the items (`Table.build_generated`), and so

* every action in the table is a candidate of its cell (`Generated.sound`);
* in a table without conflicts every candidate is in its cell (`Generated.complete`);
* the states to go to are the transitions on non-terminals (`Generated.goto`).

The first and the third hold of every generated table, however its conflicts were settled.
-/

namespace ShiftReduce.Table

/-- The actions that the items of state `n` call for on a lookahead. -/
inductive Candidate (g : Grammar) (a : Automaton) (reduceOn : Production → List Symbol) (n : Nat)
    (items : ItemSet) : Symbol → Action → Prop
  /-- The goal production is finished. -/
  | accept (h : ⟨0, 1⟩ ∈ items) : Candidate g a reduceOn n items Symbol.endMark .accept
  /-- A terminal is scanned. -/
  | shift {i : Item} {s : Symbol} {m : Nat} (hi : i ∈ items) (hs : g.scanned? i = some s)
      (ht : s ∈ g.terminals) (hm : a.target? n s = some m) :
      Candidate g a reduceOn n items s (.shift m)
  /-- Another production is finished. -/
  | reduce {r : Nat} {p : Production} {s : Symbol} (hr : 1 ≤ r) (hp : g.rule? r = some p)
      (hi : ⟨r, p.rhs.length⟩ ∈ items) (hs : s ∈ reduceOn p) :
      Candidate g a reduceOn n items s (.reduce r)

/-- What is known of a table that was filled from the automaton. -/
structure Generated (g : Grammar) (a : Automaton) (reduceOn : Production → List Symbol)
    (t : Table) : Prop where
  /-- Every action is a candidate of its cell. -/
  sound : ∀ {n : Nat} {s : Symbol} {action : Action}, t.action? n s = some action →
    ∃ items, a.states[n]? = some items ∧ Candidate g a reduceOn n items s action
  /-- Without conflicts, every candidate is in its cell. -/
  complete : t.isValid = true → ∀ {n : Nat} {items : ItemSet} {s : Symbol} {action : Action},
    a.states[n]? = some items → Candidate g a reduceOn n items s action →
    t.action? n s = some action
  /-- The states to go to are the transitions on non-terminals. -/
  goto : ∀ {n m : Nat} {s : Symbol},
    t.goto? n s = some m ↔ g.isNonTerminal s = true ∧ a.target? n s = some m

/-! ### The entries of an item -/

/-- The entries that an item of state `n` calls for. -/
def itemEntries (g : Grammar) (a : Automaton) (reduceOn : Production → List Symbol) (n : Nat)
    (i : Item) : List Entry :=
  if g.isAccepting i then [⟨n, Symbol.endMark, .accept⟩]
  else
    match g.scanned? i with
    | some s =>
      if g.isTerminal s then (a.target? n s).toList.map fun m => ⟨n, s, .shift m⟩ else []
    | none =>
      (g.rule? i.rule).toList.flatMap fun p => (reduceOn p).map fun s => ⟨n, s, .reduce i.rule⟩

/-- The entries that a state calls for. -/
def stateEntries (g : Grammar) (a : Automaton) (reduceOn : Production → List Symbol) (n : Nat)
    (items : ItemSet) : List Entry :=
  items.toList.flatMap (itemEntries g a reduceOn n)

/-- The entries of a whole table. -/
def tableEntries (g : Grammar) (a : Automaton) (reduceOn : Production → List Symbol) :
    List Entry :=
  a.states.toList.zipIdx.flatMap fun (items, n) => stateEntries g a reduceOn n items

variable {g : Grammar} {a : Automaton} {reduceOn : Production → List Symbol} {n : Nat}

/-- An item that scans nothing is at the end of its production. -/
theorem marker_eq_length {i : Item} {p : Production} (h : g.IsItem i) (hp : g.rule? i.rule = some p)
    (hs : g.scanned? i = none) : i.marker = p.rhs.length := by
  obtain ⟨p', hp', hle⟩ := h
  obtain rfl : p' = p := Option.some.inj (hp'.symm.trans hp)
  have hge : p'.rhs.length ≤ i.marker := by simpa [Grammar.scanned?, hp'] using hs
  exact Nat.le_antisymm hle hge

theorem isAccepting_iff {i : Item} (h : g.IsItem i) : g.isAccepting i = true ↔ i = ⟨0, 1⟩ := by
  obtain ⟨p, hp, hle⟩ := h
  cases i with
  | mk r m =>
      simp only [Grammar.isAccepting, Grammar.isFinal, Bool.and_eq_true, beq_iff_eq, hp,
        Option.any_some, decide_eq_true_eq, Item.mk.injEq]
      refine and_congr_right fun hr => ?_
      subst hr
      obtain rfl : g.goalRule = p := Option.some.inj hp
      simp only [Grammar.goalRule, List.length_singleton] at hle ⊢
      omega

theorem not_isAccepting_of_scanned? {i : Item} {s : Symbol} (hs : g.scanned? i = some s) :
    g.isAccepting i = false := by
  obtain ⟨p, hp, hget⟩ := Grammar.scanned?_eq_some.mp hs
  have hlt := (List.getElem?_eq_some_iff.mp hget).1
  simp [Grammar.isAccepting, Grammar.isFinal, hp, hlt]

/-- The entries of a state are its candidates. -/
theorem mem_stateEntries {items : ItemSet} (hitems : ∀ i ∈ items, g.IsItem i) {e : Entry} :
    e ∈ stateEntries g a reduceOn n items ↔
      e.row = n ∧ Candidate g a reduceOn n items e.lookahead e.action := by
  simp only [stateEntries, List.mem_flatMap, Std.ExtTreeSet.mem_toList]
  constructor
  · rintro ⟨i, hi, he⟩
    have hitem := hitems i hi
    rw [itemEntries] at he
    split at he
    · rename_i hacc
      obtain rfl := (isAccepting_iff hitem).mp hacc
      obtain rfl := List.mem_singleton.mp he
      exact ⟨rfl, .accept hi⟩
    · rename_i hacc
      split at he
      · rename_i s hs
        obtain ⟨p, hp, hmem⟩ := Grammar.scanned?_mem_rhs hs
        split at he
        · rename_i ht
          obtain ⟨m, hm, rfl⟩ := List.mem_map.mp he
          exact ⟨rfl, .shift hi hs (Grammar.mem_terminals_of_isTerminal hp hmem ht)
            (by simpa using hm)⟩
        · simp at he
      · rename_i hs
        obtain ⟨p, hp, he⟩ := List.mem_flatMap.mp he
        obtain ⟨s, hs', rfl⟩ := List.mem_map.mp he
        have hp : g.rule? i.rule = some p := by simpa using hp
        obtain ⟨r, m⟩ := i
        obtain rfl : m = p.rhs.length := marker_eq_length hitem hp hs
        refine ⟨rfl, .reduce ?_ hp hi hs'⟩
        -- production 0 at its end would be accepting
        rcases Nat.eq_zero_or_pos r with rfl | hr
        · obtain rfl : g.goalRule = p := Option.some.inj hp
          exact absurd ((isAccepting_iff hitem).mpr rfl) hacc
        · exact hr
  · obtain ⟨row, lookahead, action⟩ := e
    rintro ⟨rfl, hcand⟩
    cases hcand with
    | accept hi =>
        refine ⟨_, hi, ?_⟩
        rw [itemEntries, if_pos ((isAccepting_iff (hitems _ hi)).mpr rfl)]
        exact List.mem_singleton.mpr rfl
    | @shift i _ m hi hs ht hm =>
        dsimp only at hs ht hm
        have hterm : g.isTerminal lookahead = true := Grammar.isTerminal_iff.mpr (Or.inr ht)
        exact ⟨i, hi, by
          simp [itemEntries, not_isAccepting_of_scanned? hs, hs, hterm, hm]⟩
    | @reduce r p _ hr hp hi hs =>
        have hacc : g.isAccepting ⟨r, p.rhs.length⟩ = false := by
          simp [Grammar.isAccepting, Nat.ne_of_gt hr]
        have hscan : g.scanned? ⟨r, p.rhs.length⟩ = none := by simp [Grammar.scanned?, hp]
        exact ⟨_, hi, by simpa [itemEntries, hacc, hscan, hp] using hs⟩

theorem mem_tableEntries (h : a.Canonical g) {e : Entry} :
    e ∈ tableEntries g a reduceOn ↔
      ∃ items, a.states[e.row]? = some items ∧
        Candidate g a reduceOn e.row items e.lookahead e.action := by
  simp only [tableEntries, List.mem_flatMap, Prod.exists, List.mem_zipIdx_iff_getElem?,
    Array.getElem?_toList]
  constructor
  · rintro ⟨items, n, hn, he⟩
    obtain ⟨rfl, hcand⟩ := (mem_stateEntries (h.proper hn)).mp he
    exact ⟨items, hn, hcand⟩
  · rintro ⟨items, hn, hcand⟩
    exact ⟨items, e.row, hn, (mem_stateEntries (h.proper hn)).mpr ⟨rfl, hcand⟩⟩

/-! ### Filling the rows -/

theorem insertReduction_eq (t : Table) (rule : Nat) (lookaheads : List Symbol) :
    t.insertReduction n rule lookaheads =
      t.enterAll (lookaheads.map fun s => ⟨n, s, .reduce rule⟩) := by
  rw [insertReduction, enterAll, List.foldlM_map]
  rfl

/-- The productions that a state has reduced after one more item. -/
def reducedAfter (g : Grammar) (reduced : List Nat) (i : Item) : List Nat :=
  if g.isAccepting i then reduced
  else
    match g.scanned? i with
    | some _ => reduced
    | none => i.rule :: reduced

/-- An item enters what it calls for, if its production was not reduced before. -/
theorem insertItem_eq (h : a.Canonical g) {items : ItemSet} (hn : a.states[n]? = some items)
    {i : Item} (hi : i ∈ items) {reduced : List Nat}
    (hreduced : g.scanned? i = none → i.rule ∉ reduced) (t : Table) :
    insertItem g a reduceOn n (t, reduced) i =
      t.enterAll (itemEntries g a reduceOn n i) >>= fun t' =>
        .ok (t', reducedAfter g reduced i) := by
  obtain ⟨p, hp, -⟩ := h.proper hn i hi
  have hget : p.rhs[i.marker]? = g.scanned? i := by simp [Grammar.scanned?, hp]
  rw [insertItem, itemEntries, reducedAfter]
  split
  · simp only [enterAll, List.foldlM_cons, List.foldlM_nil, bind_assoc, pure_bind]
    rfl
  · simp only [Grammar.rule_eq_ok hp, ok_bind, hget]
    cases hs : g.scanned? i with
    | none =>
        simp only [List.contains_iff_mem, hreduced hs, if_false, hp, Option.toList_some,
          List.flatMap_cons, List.flatMap_nil, List.append_nil, insertReduction_eq]
        rfl
    | some s =>
        dsimp only
        split
        · have hscan : s ∈ g.scannedSymbols items := Grammar.mem_scannedSymbols.mpr ⟨i, hi, hs⟩
          obtain ⟨m, hm⟩ := h.exists_transition hn hscan
          simp only [h.target?_iff_mem.mpr hm, Option.toList_some, List.map_cons, List.map_nil,
            enterAll, List.foldlM_cons, List.foldlM_nil, bind_assoc, pure_bind]
          rfl
        · rfl

/-- Items at the end of their productions have different productions. -/
theorem rule_ne_of_finished {i j : Item} (hi : g.IsItem i) (hj : g.IsItem j) (hne : i ≠ j)
    (hsi : g.scanned? i = none) (hsj : g.scanned? j = none) : i.rule ≠ j.rule := by
  intro hrule
  obtain ⟨p, hp, hle⟩ := hi
  have hi : g.IsItem i := ⟨p, hp, hle⟩
  have hmi := marker_eq_length hi hp hsi
  have hmj := marker_eq_length hj (hrule ▸ hp) hsj
  cases i
  cases j
  simp_all

/-- Entering items one by one is entering the entries of all of them. -/
theorem insertItems_eq (h : a.Canonical g) {items : ItemSet} (hn : a.states[n]? = some items) :
    ∀ {rest : List Item} {reduced : List Nat} {t : Table}, (∀ i ∈ rest, i ∈ items) →
      rest.Nodup → (∀ i ∈ rest, g.scanned? i = none → i.rule ∉ reduced) →
      (·.1) <$> rest.foldlM (insertItem g a reduceOn n) (t, reduced) =
        t.enterAll (rest.flatMap (itemEntries g a reduceOn n)) := by
  intro rest
  induction rest with
  | nil => intros; rfl
  | cons i rest ih =>
      intro reduced t hmem hnodup hreduced
      obtain ⟨hnotMem, hnodup⟩ := List.nodup_cons.mp hnodup
      have hi := hmem i (by simp)
      rw [List.foldlM_cons, List.flatMap_cons, enterAll_append,
        insertItem_eq h hn hi (hreduced i (by simp))]
      cases hhead : t.enterAll (itemEntries g a reduceOn n i) with
      | error e => rfl
      | ok t' =>
          refine ih (fun j hj => hmem j (by simp [hj])) hnodup fun j hj hsj => ?_
          have hold := hreduced j (by simp [hj]) hsj
          unfold reducedAfter
          split
          · exact hold
          · split
            · exact hold
            · rename_i hsi
              have hj' := hmem j (by simp [hj])
              have hne : j ≠ i := fun heq => hnotMem (heq ▸ hj)
              simp only [List.mem_cons, not_or]
              exact ⟨rule_ne_of_finished (h.proper hn j hj') (h.proper hn i hi) hne hsj hsi, hold⟩

theorem insertState_eq (h : a.Canonical g) {items : ItemSet} (hn : a.states[n]? = some items)
    (t : Table) :
    insertState g a reduceOn t n items = t.enterAll (stateEntries g a reduceOn n items) :=
  insertItems_eq h hn (fun _ hi => Std.ExtTreeSet.mem_toList.mp hi) (nodup_toList items) (by simp)

/-- Entering state after state is entering the entries of the whole table. -/
theorem insertStates_eq (h : a.Canonical g) {states : List (ItemSet × Nat)} :
    ∀ {t : Table}, (∀ q ∈ states, a.states[q.2]? = some q.1) →
      states.foldlM (fun t (items, n) => insertState g a reduceOn t n items) t =
        t.enterAll (states.flatMap fun (items, n) => stateEntries g a reduceOn n items) := by
  induction states with
  | nil => intros; rfl
  | cons q states ih =>
      intro t hstates
      obtain ⟨items, n⟩ := q
      have hn : a.states[n]? = some items := hstates (items, n) (by simp)
      rw [List.foldlM_cons, List.flatMap_cons, enterAll_append]
      simp only [insertState_eq h hn]
      cases t.enterAll (stateEntries g a reduceOn n items) with
      | error e => rfl
      | ok t' => exact ih fun r hr => hstates r (by simp [hr])

/-! ### The states to go to -/

/-- The tables differ at most in the states to go to. -/
structure SameActions (t t' : Table) : Prop where
  mode : t'.mode = t.mode
  size : t'.rows.size = t.rows.size
  action : ∀ n s, t'.action? n s = t.action? n s
  conflicts : t'.conflicts = t.conflicts

theorem SameActions.refl (t : Table) : SameActions t t :=
  ⟨rfl, rfl, fun _ _ => rfl, rfl⟩

theorem SameActions.trans {t t' t'' : Table} (h : SameActions t t') (h' : SameActions t' t'') :
    SameActions t t'' :=
  ⟨h'.mode.trans h.mode, h'.size.trans h.size, fun n s => (h'.action n s).trans (h.action n s),
    h'.conflicts.trans h.conflicts⟩

theorem setGoto_spec {t : Table} {n : Nat} (h : n < t.rows.size) (s : Symbol) (m : Nat) :
    ∃ t', t.setGoto n s m = .ok t' ∧ SameActions t t' ∧
      ∀ n' s', t'.goto? n' s' = if n' = n ∧ s' = s then some m else t.goto? n' s' := by
  have hset : t.setGoto n s m = .ok (t.setRow n
      ⟨t.rows[n].actions, t.rows[n].gotos.insert s m⟩ t.conflicts) := by
    rw [setGoto, row_eq_ok h]
    rfl
  refine ⟨_, hset, ⟨rfl, by simp [setRow], fun n' s' => ?_, rfl⟩, fun n' s' => ?_⟩
  · rw [action?_setRow h]
    split
    · rename_i hn
      rw [hn, action?_of_lt h]
    · rfl
  · rw [goto?_setRow h]
    by_cases hn : n' = n
    · subst hn
      rw [if_pos rfl, Std.ExtTreeMap.getElem?_insert]
      by_cases hs : s' = s
      · simp [hs]
      · simp [hs, Ne.symm hs, goto?_of_lt h]
    · simp [hn]

/-- Entering transitions one by one. What a row goes to afterwards was there before or is one of the
transitions on non-terminals, and each of these is entered. -/
theorem insertTransitions_spec {edges : List Transition} :
    ∀ {t : Table}, (∀ e ∈ edges, e.source < t.rows.size) →
      ∃ t', edges.foldlM (insertTransition g) t = .ok t' ∧ SameActions t t' ∧
        (∀ n s m, t'.goto? n s = some m →
          t.goto? n s = some m ∨ g.isNonTerminal s = true ∧ ⟨n, s, m⟩ ∈ edges) ∧
        ∀ n s, (∃ m, t.goto? n s = some m) ∨ g.isNonTerminal s = true ∧ (∃ m, ⟨n, s, m⟩ ∈ edges) →
          ∃ m, t'.goto? n s = some m := by
  induction edges with
  | nil =>
      intro t _
      exact ⟨t, rfl, .refl t, fun n s m hm => Or.inl hm,
        fun n s hm => hm.elim id fun hm => by simp at hm⟩
  | cons edge edges ih =>
      intro t hedges
      obtain ⟨source, symbol, target⟩ := edge
      by_cases hnon : g.isNonTerminal symbol = true
      · have hsource : source < t.rows.size := hedges ⟨source, symbol, target⟩ (by simp)
        obtain ⟨t₁, hset, hsame, hgoto⟩ := setGoto_spec hsource symbol target
        obtain ⟨t', hfold, hsame', hsound, hkeep⟩ :=
          @ih t₁ fun e he => hsame.size ▸ hedges e (by simp [he])
        refine ⟨t', ?_, hsame.trans hsame', fun n s m hm => ?_, fun n s hm => hkeep n s ?_⟩
        · rw [List.foldlM_cons, insertTransition, if_pos hnon, hset]
          exact hfold
        · rcases hsound n s m hm with h₁ | ⟨hs, hmem⟩
          · rw [hgoto] at h₁
            split at h₁
            · rename_i hcell
              obtain ⟨rfl, rfl⟩ := hcell
              cases h₁
              exact Or.inr ⟨hnon, by simp⟩
            · exact Or.inl h₁
          · exact Or.inr ⟨hs, by simp [hmem]⟩
        · simp only [hgoto]
          by_cases hcell : n = source ∧ s = symbol
          · exact Or.inl ⟨target, if_pos hcell⟩
          · rcases hm with ⟨m, hm⟩ | ⟨hs, m, hm⟩
            · exact Or.inl ⟨m, by rwa [if_neg hcell]⟩
            · rcases List.mem_cons.mp hm with heq | hm
              · cases heq
                exact absurd ⟨rfl, rfl⟩ hcell
              · exact Or.inr ⟨hs, m, hm⟩
      · obtain ⟨t', hfold, hsame, hsound, hkeep⟩ := @ih t fun e he => hedges e (by simp [he])
        refine ⟨t', ?_, hsame, fun n s m hm => ?_, fun n s hm => hkeep n s ?_⟩
        · rw [List.foldlM_cons, insertTransition, if_neg hnon]
          exact hfold
        · exact (hsound n s m hm).imp_right fun ⟨hs, hmem⟩ => ⟨hs, by simp [hmem]⟩
        · refine hm.imp_right fun ⟨hs, m, hm⟩ => ⟨hs, m, ?_⟩
          rcases List.mem_cons.mp hm with heq | hm
          · cases heq
            exact absurd hs hnon
          · exact hm

/-- The transitions of the automaton, entered into a table without any. -/
theorem insertTransitions_goto (h : a.Canonical g) {t : Table} (hsize : t.rows.size = a.states.size)
    (hempty : ∀ n s, t.goto? n s = none) :
    ∃ t', a.transitions.toList.foldlM (insertTransition g) t = .ok t' ∧ SameActions t t' ∧
      ∀ {n m : Nat} {s : Symbol},
        t'.goto? n s = some m ↔ g.isNonTerminal s = true ∧ a.target? n s = some m := by
  have hrows : ∀ e ∈ a.transitions.toList, e.source < t.rows.size := by
    intro e he
    obtain ⟨items, hn, -⟩ := h.transition_spec (Array.mem_toList_iff.mp he)
    rw [hsize]
    exact (Array.getElem?_eq_some_iff.mp hn).1
  obtain ⟨t', hfold, hsame, hsound, hkeep⟩ := @insertTransitions_spec g _ t hrows
  have hgoto : ∀ {n m : Nat} {s : Symbol}, t'.goto? n s = some m →
      g.isNonTerminal s = true ∧ a.target? n s = some m := by
    intro n m s hm
    rcases hsound n s m hm with hold | ⟨hs, hmem⟩
    · simp [hempty] at hold
    · exact ⟨hs, h.target?_iff_mem.mpr (Array.mem_toList_iff.mp hmem)⟩
  refine ⟨t', hfold, hsame, fun {n m s} => ⟨hgoto, ?_⟩⟩
  rintro ⟨hs, hm⟩
  have hmem := Array.mem_toList_iff.mpr (h.target?_iff_mem.mp hm)
  obtain ⟨m', hm'⟩ := hkeep n s (Or.inr ⟨hs, m, hmem⟩)
  -- the cell has a target, and the automaton has no other one
  rw [hm', Option.some.inj ((hgoto hm').2.symm.trans hm)]

/-! ### Whole tables -/

theorem action?_empty (mode : Mode) (states n : Nat) (s : Symbol) :
    (empty mode states).action? n s = none := by
  simp only [action?, empty, Array.getElem?_replicate]
  split <;> simp [Row.empty]

theorem goto?_empty (mode : Mode) (states n : Nat) (s : Symbol) :
    (empty mode states).goto? n s = none := by
  simp only [goto?, empty, Array.getElem?_replicate]
  split <;> simp [Row.empty]

/-- The rows of all states are filled by entering the candidates of all cells. -/
theorem insertStates_history (h : a.Canonical g) (mode : Mode) :
    ∃ t, a.states.toList.zipIdx.foldlM (fun t (items, n) => insertState g a reduceOn t n items)
        (empty mode a.states.size) = .ok t ∧
      (empty mode a.states.size).History (tableEntries g a reduceOn) t := by
  have hrows : ∀ e ∈ tableEntries g a reduceOn, e.row < (empty mode a.states.size).rows.size := by
    intro e he
    obtain ⟨items, hn, -⟩ := (mem_tableEntries h).mp he
    simpa [empty] using (Array.getElem?_eq_some_iff.mp hn).1
  obtain ⟨t, hfill, hhistory⟩ := enterAll_history hrows
  refine ⟨t, ?_, hhistory⟩
  rw [insertStates_eq h fun q hq => by simpa using List.mem_zipIdx_iff_getElem?.mp hq]
  exact hfill

/-- Two candidates of a cell that agree are equal: shifts go along the same transition. -/
theorem Candidate.eq_of_agrees {items items' : ItemSet} {s : Symbol} {action kept : Action}
    (h : Candidate g a reduceOn n items s action) (h' : Candidate g a reduceOn n items' s kept)
    (hagrees : action.Agrees kept) : kept = action := by
  rcases hagrees with rfl | ⟨m, m', rfl, rfl⟩
  · rfl
  · cases h with
    | shift _ _ _ hm =>
        cases h' with
        | shift _ _ _ hm' => rw [Option.some.inj (hm.symm.trans hm')]

/-- Filling a table succeeds. Its actions and conflicts are those of a history of the entries, and
its states to go to are the transitions on non-terminals. -/
theorem build_history (h : a.Canonical g) {mode : Mode} {lookahead : Option Lookahead}
    (hlook : reductionLookaheads g mode lookahead = .ok reduceOn) :
    ∃ t₁ t, build g a mode lookahead = .ok t ∧
      (empty mode a.states.size).History (tableEntries g a reduceOn) t₁ ∧ SameActions t₁ t ∧
      ∀ {n m : Nat} {s : Symbol},
        t.goto? n s = some m ↔ g.isNonTerminal s = true ∧ a.target? n s = some m := by
  obtain ⟨t₁, hstates, hhistory⟩ := @insertStates_history g a reduceOn h mode
  obtain ⟨t, hgotos, hsame, hgoto⟩ := insertTransitions_goto h
    (hhistory.size.trans (by simp [empty]))
    (fun n s => (hhistory.goto? n s).trans (goto?_empty mode _ n s))
  refine ⟨t₁, t, ?_, hhistory, hsame, hgoto⟩
  rw [build, hlook, ok_bind, hstates]
  exact hgotos

/-- Filling a table from the automaton of the grammar succeeds, whatever its conflicts. -/
theorem build_generated (h : a.Canonical g) {mode : Mode} {lookahead : Option Lookahead}
    (hlook : reductionLookaheads g mode lookahead = .ok reduceOn) :
    ∃ t, build g a mode lookahead = .ok t ∧ t.mode = mode ∧ Generated g a reduceOn t := by
  obtain ⟨t₁, t, hbuild, hhistory, hsame, hgoto⟩ := build_history h hlook
  have hsound : ∀ {n : Nat} {s : Symbol} {action : Action}, t.action? n s = some action →
      ∃ items, a.states[n]? = some items ∧ Candidate g a reduceOn n items s action := by
    intro n s action ha
    rw [hsame.action] at ha
    rcases hhistory.action?_mem ha with hempty | hmem
    · simp [action?_empty] at hempty
    · exact (mem_tableEntries h).mp hmem
  refine ⟨t, hbuild, hsame.mode.trans hhistory.mode, hsound, ?_, hgoto⟩
  intro hvalid n items s action hn hcandidate
  have hnone : t₁.conflicts.toList = [] := by
    rw [← hsame.conflicts]
    simpa [isValid] using hvalid
  have hmem : ⟨n, s, action⟩ ∈ tableEntries g a reduceOn :=
    (mem_tableEntries h).mpr ⟨items, hn, hcandidate⟩
  obtain ⟨kept, hkept, hagrees⟩ := hhistory.agrees_of_mem hnone hmem
  have ha : t.action? n s = some kept := (hsame.action n s).trans hkept
  obtain ⟨items', -, hcandidate'⟩ := hsound ha
  rw [ha, hcandidate.eq_of_agrees hcandidate' hagrees]

end ShiftReduce.Table
