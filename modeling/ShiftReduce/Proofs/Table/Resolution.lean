import ShiftReduce.Proofs.Table.Cell
import ShiftReduce.Proofs.Table.Generated

/-!
# ShiftReduce.Proofs.Table.Resolution

**What any history of calls leaves in a table.** A table can be built by hand: actions are put into
cells and states to go to are set, in any order, and a call may name a row that there is not
(`Table.Edit`, `Table.ofEdits`). Such a call fails and changes nothing.

`Table.Resolved` is what a call keeps (`Table.Resolved.attempt`): a cell holds what the actions that
were put there leave, as if there were no other cells, and every record is of two different actions
that were put into its cell. With `Action.cellAfter_eq_preferred` the cell has a closed form that
does not mention the order of calls for different cells, nor how the five cases of a clash follow
each other.
-/

namespace ShiftReduce

namespace Action

/-- A clash is one of the old and the new action, which are different. -/
theorem settle_clash {old new first second : Action} {kind : ConflictKind}
    (h : (old.settle new).2 = some (kind, first, second)) :
    first ≠ second ∧ (first = old ∧ second = new ∨ first = new ∧ second = old) := by
  unfold settle at h
  split at h
  · simp at h
  · rename_i hne
    split at h <;> simp_all [eq_comm]

/-- What a cell holds in the end was put there, or was there before. -/
theorem mem_of_cellAfter {cell : Option Action} {actions : List Action} {action : Action}
    (h : cellAfter cell actions = some action) : cell = some action ∨ action ∈ actions := by
  induction actions generalizing cell with
  | nil => exact Or.inl h
  | cons first rest ih =>
      rcases ih h with hfirst | hrest
      · have hsettled : Table.settled cell first = action := Option.some.inj hfirst
        cases cell with
        | none => exact Or.inr (by simp [← hsettled, Table.settled])
        | some old =>
            rcases settle_fst old first with hkept | hkept
            · exact Or.inl (by rw [← hsettled, Table.settled, hkept])
            · exact Or.inr (by rw [← hsettled, Table.settled, hkept]; simp)
      · exact Or.inr (List.mem_cons_of_mem _ hrest)

/-- Without errors nothing stays only if there was nothing. -/
theorem preferred_eq_none_iff {actions : List Action} (herror : .error ∉ actions) :
    preferred actions = none ↔ actions = [] := by
  refine ⟨fun hnone => Decidable.byContradiction fun hne => ?_, fun h => h ▸ rfl⟩
  obtain ⟨action, hsome⟩ := exists_preferred herror hne
  rw [hnone] at hsome
  cases hsome

end Action

namespace Table

/-! ### Calls -/

/-- A call that changes a table. -/
inductive Edit where
  /-- Puts an action into a cell. -/
  | action (e : Entry)
  /-- Sets the state to go to on a non-terminal. -/
  | goto (row : Nat) (symbol : Symbol) (target : Nat)

/-- The row that a call names. -/
def Edit.row : Edit → Nat
  | .action e => e.row
  | .goto row _ _ => row

/-- The insertion that a call makes, if it is one. -/
def Edit.entry? : Edit → Option Entry
  | .action e => some e
  | .goto _ _ _ => none

/-- Makes a call. -/
def edit (t : Table) : Edit → Except Missing Table
  | .action e => t.insertAction e.row e.lookahead e.action
  | .goto row symbol target => t.setGoto row symbol target

/-- The table after a call, which is the same if the call failed. -/
def attempt (t : Table) (d : Edit) : Table :=
  match t.edit d with
  | .ok t' => t'
  | .error _ => t

/-- The table that a list of calls makes of an empty one. -/
def ofEdits (mode : Mode) (size : Nat) (edits : List Edit) : Table :=
  edits.foldl attempt (empty mode size)

/-- The actions that were put into a cell, in order. -/
def actionsAt (edits : List Edit) (n : Nat) (s : Symbol) : List Action :=
  cellActions (edits.filterMap Edit.entry?) n s

variable {mode : Mode} {size : Nat} {edits : List Edit} {t t' : Table} {d : Edit}

theorem ofEdits_append_singleton :
    ofEdits mode size (edits ++ [d]) = (ofEdits mode size edits).attempt d :=
  List.foldl_append

theorem actionsAt_append (edits more : List Edit) (n : Nat) (s : Symbol) :
    actionsAt (edits ++ more) n s = actionsAt edits n s ++ actionsAt more n s := by
  rw [actionsAt, List.filterMap_append, cellActions_append]
  rfl

@[simp] theorem actionsAt_action (e : Entry) (n : Nat) (s : Symbol) :
    actionsAt [.action e] n s = if n = e.row ∧ s = e.lookahead then [e.action] else [] :=
  cellActions_cons e [] n s

@[simp] theorem actionsAt_goto (row target : Nat) (symbol : Symbol) (n : Nat) (s : Symbol) :
    actionsAt [.goto row symbol target] n s = [] :=
  rfl

theorem mem_actionsAt {n : Nat} {s : Symbol} {x : Action} :
    x ∈ actionsAt edits n s ↔ .action ⟨n, s, x⟩ ∈ edits := by
  rw [actionsAt, mem_cellActions, List.mem_filterMap]
  constructor
  · rintro ⟨d, hd, hentry⟩
    cases d with
    | action e => exact Option.some.inj hentry ▸ hd
    | goto => cases hentry
  · intro hmem
    exact ⟨_, hmem, rfl⟩

/-- A call puts nothing into the cells of another row. -/
theorem actionsAt_of_ne {n : Nat} {s : Symbol} (h : n ≠ d.row) : actionsAt [d] n s = [] := by
  cases d with
  | action e => rw [actionsAt_action, if_neg fun hcell => h hcell.1]
  | goto => rfl

/-- A call for a row that there is not fails. -/
theorem edit_eq_error (h : t.rows.size ≤ d.row) : t.edit d = .error (.row d.row) := by
  have hrow : t.row d.row = .error (.row d.row) := by
    rw [row, Array.getElem?_eq_none_iff.mpr h]
  cases d with
  | action e =>
      rw [edit, insertAction]
      exact congrArg (· >>= _) hrow
  | goto n s m =>
      rw [edit, setGoto]
      exact congrArg (· >>= _) hrow

theorem attempt_eq_self (h : t.rows.size ≤ d.row) : t.attempt d = t := by
  rw [attempt, edit_eq_error h]

theorem attempt_eq (h : t.edit d = .ok t') : t.attempt d = t' := by
  rw [attempt, h]

/-! ### What a call keeps -/

/-- The cells are settled one by one, and records are of actions of their cells. -/
structure Resolved (size : Nat) (edits : List Edit) (t : Table) : Prop where
  rows : t.rows.size = size
  cells : ∀ n < size, ∀ s, t.action? n s = Action.cellAfter none (actionsAt edits n s)
  records : ∀ c ∈ t.conflicts.toList, c.first ≠ c.second ∧
    c.first ∈ actionsAt edits c.state c.lookahead ∧
    c.second ∈ actionsAt edits c.state c.lookahead

theorem resolved_empty (mode : Mode) (size : Nat) : Resolved size [] (empty mode size) where
  rows := by simp [empty]
  cells n _ s := action?_empty mode size n s
  records := by simp [empty]

/-- A record that is appended is of what the cell held and what was put there. -/
theorem Resolved.clash (h : Resolved size edits t) {e : Entry} (hrow : e.row < size) {c : Conflict}
    (hc : e.clash? (t.action? e.row e.lookahead) = some c) : c.first ≠ c.second ∧
      c.first ∈ actionsAt (edits ++ [.action e]) c.state c.lookahead ∧
      c.second ∈ actionsAt (edits ++ [.action e]) c.state c.lookahead := by
  obtain ⟨old, hold, hclash⟩ := Option.bind_eq_some_iff.mp hc
  obtain ⟨⟨kind, first, second⟩, hsettle, rfl⟩ := Option.map_eq_some_iff.mp hclash
  obtain ⟨hne, hpair⟩ := Action.settle_clash hsettle
  have hmem : old ∈ actionsAt edits e.row e.lookahead := by
    rw [h.cells e.row hrow] at hold
    exact (Action.mem_of_cellAfter hold).resolve_left nofun
  refine ⟨hne, ?_⟩
  rw [actionsAt_append, actionsAt_action, if_pos ⟨rfl, rfl⟩]
  rcases hpair with ⟨rfl, rfl⟩ | ⟨rfl, rfl⟩
  · exact ⟨List.mem_append_left _ hmem, by simp⟩
  · exact ⟨by simp, List.mem_append_left _ hmem⟩

/-- Every call keeps the table resolved, whether it fails or not. -/
theorem Resolved.attempt (h : Resolved size edits t) (d : Edit) :
    Resolved size (edits ++ [d]) (t.attempt d) := by
  have hmono : ∀ {n s x}, x ∈ actionsAt edits n s → x ∈ actionsAt (edits ++ [d]) n s := by
    intro n s x hx
    rw [actionsAt_append]
    exact List.mem_append_left _ hx
  have hrecords : ∀ c ∈ t.conflicts.toList, c.first ≠ c.second ∧
      c.first ∈ actionsAt (edits ++ [d]) c.state c.lookahead ∧
      c.second ∈ actionsAt (edits ++ [d]) c.state c.lookahead := fun c hc =>
    ⟨(h.records c hc).1, hmono (h.records c hc).2.1, hmono (h.records c hc).2.2⟩
  rcases Nat.lt_or_ge d.row size with hrow | hrow
  · cases d with
    | action e =>
        obtain ⟨t', henter, h'⟩ := enter_entered (h.rows.symm ▸ hrow : e.row < t.rows.size)
        have hedit : t.edit (.action e) = .ok t' := henter
        rw [attempt_eq hedit]
        refine ⟨h'.size.trans h.rows, fun n hn s => ?_, fun c hc => ?_⟩
        · rw [h'.action, actionsAt_append, actionsAt_action, h.cells n hn]
          split
          · simp [Action.cellAfter]
          · rw [List.append_nil]
        · rw [h'.conflicts, List.mem_append, Option.mem_toList] at hc
          exact hc.elim (hrecords c) (h.clash hrow)
    | goto n s m =>
        obtain ⟨t', hset, hsame, -⟩ := setGoto_spec (h.rows.symm ▸ hrow : n < t.rows.size) s m
        have hedit : t.edit (.goto n s m) = .ok t' := hset
        rw [attempt_eq hedit]
        refine ⟨hsame.size.trans h.rows, fun n' hn s' => ?_, fun c hc => ?_⟩
        · rw [hsame.action, actionsAt_append, actionsAt_goto, List.append_nil, h.cells n' hn]
        · exact hrecords c (hsame.conflicts ▸ hc)
  · rw [attempt_eq_self (h.rows.symm ▸ hrow)]
    refine ⟨h.rows, fun n hn s => ?_, hrecords⟩
    -- the row of the call is none of the table's, so no cell of the table is meant
    have hne : n ≠ d.row := Nat.ne_of_lt (Nat.lt_of_lt_of_le hn hrow)
    rw [actionsAt_append, actionsAt_of_ne hne, List.append_nil, h.cells n hn]

/-- Any list of calls leaves a resolved table. -/
theorem ofEdits_resolved (mode : Mode) (size : Nat) (edits : List Edit) :
    Resolved size edits (ofEdits mode size edits) := by
  induction edits using List.reverseRecOn with
  | nil => exact resolved_empty mode size
  | append_singleton edits d ih =>
      rw [ofEdits_append_singleton]
      exact ih.attempt d

/-! ### Cells, records and one more call -/

/-- After any calls, a cell into which no error was put is empty if nothing was put there. Else it
holds accept if that was put there, else the first shift, else the first reduction. A record is of
two different actions that were put into its cell, so a cell with one action has none. One more
insertion leaves all other cells, all states to go to and all records as they are, and appends at
most one record; a call for a row that there is not fails, and changes nothing. -/
theorem ofEdits_settled (mode : Mode) (size : Nat) (edits : List Edit) :
    ∃ t, ofEdits mode size edits = t ∧
      (∀ n < size, ∀ s, .error ∉ actionsAt edits n s →
        (t.action? n s = none ↔ actionsAt edits n s = []) ∧
        t.action? n s = Action.preferred (actionsAt edits n s)) ∧
      (∀ c ∈ t.conflicts, c.first ≠ c.second ∧
        .action ⟨c.state, c.lookahead, c.first⟩ ∈ edits ∧
        .action ⟨c.state, c.lookahead, c.second⟩ ∈ edits) ∧
      (∀ n s action, (∀ x, .action ⟨n, s, x⟩ ∈ edits → x = action) →
        ∀ c ∈ t.conflicts, ¬(c.state = n ∧ c.lookahead = s)) ∧
      (∀ e : Entry, e.row < size →
        ∃ t', t.edit (.action e) = .ok t' ∧ ofEdits mode size (edits ++ [.action e]) = t' ∧
          (∀ n s, ¬(n = e.row ∧ s = e.lookahead) → t'.action? n s = t.action? n s) ∧
          (∀ n s, t'.goto? n s = t.goto? n s) ∧
          ∃ new : Option Conflict, t'.conflicts.toList = t.conflicts.toList ++ new.toList) ∧
      ∀ d : Edit, size ≤ d.row →
        t.edit d = .error (.row d.row) ∧ ofEdits mode size (edits ++ [d]) = t := by
  have h := ofEdits_resolved mode size edits
  have hrecords : ∀ c ∈ (ofEdits mode size edits).conflicts, c.first ≠ c.second ∧
      .action ⟨c.state, c.lookahead, c.first⟩ ∈ edits ∧
      .action ⟨c.state, c.lookahead, c.second⟩ ∈ edits := fun c hc => by
    obtain ⟨hne, hfirst, hsecond⟩ := h.records c (Array.mem_toList_iff.mpr hc)
    exact ⟨hne, mem_actionsAt.mp hfirst, mem_actionsAt.mp hsecond⟩
  refine ⟨_, rfl, fun n hn s herror => ?_, hrecords, fun n s action hone c hc hcell => ?_,
    fun e hrow => ?_, fun d hrow => ?_⟩
  · have hcell : (ofEdits mode size edits).action? n s = Action.preferred (actionsAt edits n s) :=
      (h.cells n hn s).trans (Action.cellAfter_eq_preferred herror)
    rw [hcell]
    exact ⟨Action.preferred_eq_none_iff herror, rfl⟩
  · obtain ⟨rfl, rfl⟩ := hcell
    obtain ⟨hne, hfirst, hsecond⟩ := hrecords c hc
    exact hne ((hone _ hfirst).trans (hone _ hsecond).symm)
  · obtain ⟨t', henter, h'⟩ := enter_entered (h.rows.symm ▸ hrow)
    exact ⟨t', henter, ofEdits_append_singleton.trans (attempt_eq henter),
      fun n s hcell => by rw [h'.action, if_neg hcell], h'.goto, _, h'.conflicts⟩
  · have hrows : (ofEdits mode size edits).rows.size ≤ d.row := h.rows.symm ▸ hrow
    exact ⟨edit_eq_error hrows, ofEdits_append_singleton.trans (attempt_eq_self hrows)⟩

end Table

end ShiftReduce
