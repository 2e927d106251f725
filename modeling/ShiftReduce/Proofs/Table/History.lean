import ShiftReduce.Table
import ShiftReduce.Proofs.Grammar

/-!
# ShiftReduce.Proofs.Table.History

**Tables as the result of a history of insertions.** An `Entry` is one call of `Table.insertAction`.
`Table.Entered` says everything that such a call does: one cell is settled, all others stay, and the
conflict of the settling, if there is one, is appended. `Table.History` chains calls.

Two facts about histories carry the theory of generated tables. Whatever a cell holds was there
before or was entered (`History.action?_mem`). Where no conflict arose, everything that was entered
is still there, up to the shift/shift clashes that are dropped silently (`History.agrees_of_mem`).
-/

namespace ShiftReduce

namespace Action

/-- Settling keeps one of the two actions. -/
theorem settle_fst (old new : Action) :
    (old.settle new).1 = old ∨ (old.settle new).1 = new := by
  unfold settle
  split
  · exact Or.inl rfl
  · split <;> simp

/-- The two actions are equal, or both are shifts. -/
def Agrees (a b : Action) : Prop :=
  a = b ∨ ∃ m n, a = .shift m ∧ b = .shift n

theorem Agrees.refl (a : Action) : a.Agrees a := Or.inl rfl

theorem Agrees.trans {a b c : Action} (h₁ : a.Agrees b) (h₂ : b.Agrees c) : a.Agrees c := by
  rcases h₁ with rfl | ⟨m, n, rfl, rfl⟩
  · exact h₂
  · rcases h₂ with rfl | ⟨-, k, -, rfl⟩
    · exact Or.inr ⟨m, n, rfl, rfl⟩
    · exact Or.inr ⟨m, k, rfl, rfl⟩

/-- Settling without a conflict keeps an action that agrees with both. -/
theorem settle_agrees {old new : Action} (h : (old.settle new).2 = none) :
    old.Agrees (old.settle new).1 ∧ new.Agrees (old.settle new).1 := by
  unfold settle at h ⊢
  split
  · rename_i heq
    exact ⟨.refl _, heq ▸ .refl _⟩
  · rename_i hne
    rw [if_neg hne] at h
    split at h <;> simp_all [Agrees]

end Action

namespace Table

/-- An action to be inserted into a cell. -/
structure Entry where
  row : Nat
  lookahead : Symbol
  action : Action
  deriving DecidableEq

/-- The action that a cell holds after an insertion. -/
def settled (old : Option Action) (new : Action) : Action :=
  match old with
  | none => new
  | some old => (old.settle new).1

/-- The conflict that an insertion into a cell brings about. -/
def Entry.clash? (e : Entry) (old : Option Action) : Option Conflict :=
  old.bind fun old => (old.settle e.action).2.map fun (kind, first, second) =>
    ⟨kind, e.row, e.lookahead, first, second, (old.settle e.action).1⟩

/-- Inserts one action. -/
def enter (t : Table) (e : Entry) : Except Missing Table :=
  t.insertAction e.row e.lookahead e.action

/-- Inserts several actions in order. -/
def enterAll (t : Table) (es : List Entry) : Except Missing Table :=
  es.foldlM enter t

theorem enterAll_append (t : Table) (es fs : List Entry) :
    t.enterAll (es ++ fs) = t.enterAll es >>= (·.enterAll fs) :=
  List.foldlM_append

/-! ### One insertion -/

/-- What an insertion does to a table. -/
structure Entered (t : Table) (e : Entry) (t' : Table) : Prop where
  mode : t'.mode = t.mode
  size : t'.rows.size = t.rows.size
  /-- The cell is settled, and the others stay. -/
  action : ∀ n s, t'.action? n s =
    if n = e.row ∧ s = e.lookahead then some (settled (t.action? n s) e.action) else t.action? n s
  goto : ∀ n s, t'.goto? n s = t.goto? n s
  /-- The conflict of the settling is recorded. -/
  conflicts : t'.conflicts.toList =
    t.conflicts.toList ++ (e.clash? (t.action? e.row e.lookahead)).toList

theorem row_eq_ok {t : Table} {n : Nat} (h : n < t.rows.size) : t.row n = .ok t.rows[n] := by
  simp [row, h]

theorem action?_of_lt {t : Table} {n : Nat} (h : n < t.rows.size) (s : Symbol) :
    t.action? n s = t.rows[n].actions[s]? := by
  simp [action?, h]

theorem goto?_of_lt {t : Table} {n : Nat} (h : n < t.rows.size) (s : Symbol) :
    t.goto? n s = t.rows[n].gotos[s]? := by
  simp [goto?, h]

/-- The table with another row in the place of row `m`. -/
def setRow (t : Table) (m : Nat) (row : Row) (conflicts : Array Conflict) : Table :=
  ⟨t.mode, t.rows.setIfInBounds m row, conflicts⟩

theorem action?_setRow {t : Table} {m : Nat} (h : m < t.rows.size) (row : Row)
    (conflicts : Array Conflict) (n : Nat) (s : Symbol) :
    (t.setRow m row conflicts).action? n s =
      if n = m then row.actions[s]? else t.action? n s := by
  by_cases hn : n = m
  · subst hn
    simp [action?, setRow, h]
  · simp [action?, setRow, hn, Ne.symm hn]

theorem goto?_setRow {t : Table} {m : Nat} (h : m < t.rows.size) (row : Row)
    (conflicts : Array Conflict) (n : Nat) (s : Symbol) :
    (t.setRow m row conflicts).goto? n s =
      if n = m then row.gotos[s]? else t.goto? n s := by
  by_cases hn : n = m
  · subst hn
    simp [goto?, setRow, h]
  · simp [goto?, setRow, hn, Ne.symm hn]

/-- An insertion replaces one cell of one row, and records the conflict if there is one. -/
theorem enter_eq {t : Table} {e : Entry} (h : e.row < t.rows.size) :
    t.enter e = .ok (t.setRow e.row
      ⟨t.rows[e.row].actions.insert e.lookahead
        (settled (t.action? e.row e.lookahead) e.action), t.rows[e.row].gotos⟩
      (t.conflicts ++ (e.clash? (t.action? e.row e.lookahead)).toArray)) := by
  rw [action?_of_lt h, enter, insertAction, row_eq_ok h]
  simp only [bind, Except.bind]
  cases hold : t.rows[e.row].actions[e.lookahead]? with
  | none => simp [setRow, settled, Entry.clash?, pure, Except.pure]
  | some old =>
      cases hclash : (old.settle e.action).2 with
      | none => simp [setRow, settled, Entry.clash?, hclash, pure, Except.pure]
      | some clash => simp [setRow, settled, Entry.clash?, hclash, pure, Except.pure]

/-- An insertion into a row of the table succeeds. -/
theorem enter_entered {t : Table} {e : Entry} (h : e.row < t.rows.size) :
    ∃ t', t.enter e = .ok t' ∧ t.Entered e t' := by
  refine ⟨_, enter_eq h, ⟨rfl, by simp [setRow], fun n s => ?_, fun n s => ?_, ?_⟩⟩
  · rw [action?_setRow h]
    by_cases hn : n = e.row
    · subst hn
      rw [if_pos rfl, Std.ExtTreeMap.getElem?_insert]
      by_cases hs : s = e.lookahead
      · simp [hs]
      · simp [hs, Ne.symm hs, action?_of_lt h]
    · simp [hn]
  · rw [goto?_setRow h]
    by_cases hn : n = e.row
    · subst hn
      simp [goto?_of_lt h]
    · simp [hn]
  · simp [setRow]

namespace Entered

variable {t t' : Table} {e : Entry}

/-- What a cell holds was there before, or was entered. -/
theorem action?_cases (h : t.Entered e t') {n : Nat} {s : Symbol} {action : Action}
    (ha : t'.action? n s = some action) : t.action? n s = some action ∨ ⟨n, s, action⟩ = e := by
  rw [h.action] at ha
  split at ha
  · rename_i hcell
    obtain ⟨rfl, rfl⟩ := hcell
    cases hold : t.action? e.row e.lookahead with
    | none =>
        obtain rfl : e.action = action := by simpa [hold, settled] using ha
        exact Or.inr rfl
    | some old =>
        rw [hold, settled] at ha
        rcases Action.settle_fst old e.action with hkept | hkept
        · exact Or.inl (hkept ▸ ha)
        · obtain rfl : e.action = action := Option.some.inj (hkept ▸ ha)
          exact Or.inr rfl
  · exact Or.inl ha

/-- A table without conflicts has settled its last insertion without one. -/
theorem settle_eq_none (h : t.Entered e t') (hvalid : t'.conflicts.toList = []) {old : Action}
    (hold : t.action? e.row e.lookahead = some old) : (old.settle e.action).2 = none := by
  rw [h.conflicts, hold] at hvalid
  simpa [Entry.clash?] using (List.append_eq_nil_iff.mp hvalid).2

theorem agrees_old (h : t.Entered e t') (hvalid : t'.conflicts.toList = []) {n : Nat} {s : Symbol}
    {old : Action} (hold : t.action? n s = some old) :
    ∃ kept, t'.action? n s = some kept ∧ old.Agrees kept := by
  rw [h.action]
  split
  · rename_i hcell
    obtain ⟨rfl, rfl⟩ := hcell
    exact ⟨_, rfl, hold ▸ (Action.settle_agrees (h.settle_eq_none hvalid hold)).1⟩
  · exact ⟨old, hold, .refl old⟩

theorem agrees_new (h : t.Entered e t') (hvalid : t'.conflicts.toList = []) :
    ∃ kept, t'.action? e.row e.lookahead = some kept ∧ e.action.Agrees kept := by
  rw [h.action, if_pos ⟨rfl, rfl⟩]
  refine ⟨_, rfl, ?_⟩
  cases hold : t.action? e.row e.lookahead with
  | none => exact .refl _
  | some old => exact (Action.settle_agrees (h.settle_eq_none hvalid hold)).2

end Entered

/-! ### Histories -/

/-- One insertion after the other. -/
inductive History : Table → List Entry → Table → Prop
  | nil (t : Table) : History t [] t
  | cons {t t₁ t' : Table} {e : Entry} {es : List Entry} (head : t.Entered e t₁)
      (tail : History t₁ es t') : History t (e :: es) t'

/-- Insertions into rows of the table succeed. -/
theorem enterAll_history {es : List Entry} :
    ∀ {t : Table}, (∀ e ∈ es, e.row < t.rows.size) →
      ∃ t', t.enterAll es = .ok t' ∧ t.History es t' := by
  induction es with
  | nil => exact fun {t} _ => ⟨t, rfl, .nil t⟩
  | cons e es ih =>
      intro t h
      obtain ⟨t₁, henter, h₁⟩ := enter_entered (h e (by simp))
      obtain ⟨t', hall, h'⟩ := ih fun f hf => h₁.size ▸ h f (by simp [hf])
      refine ⟨t', ?_, .cons h₁ h'⟩
      rw [enterAll, List.foldlM_cons, henter]
      exact hall

namespace History

variable {t t' : Table} {es : List Entry}

theorem mode (h : t.History es t') : t'.mode = t.mode := by
  induction h with
  | nil => rfl
  | cons head _ ih => exact ih.trans head.mode

theorem size (h : t.History es t') : t'.rows.size = t.rows.size := by
  induction h with
  | nil => rfl
  | cons head _ ih => exact ih.trans head.size

theorem goto? (h : t.History es t') (n : Nat) (s : Symbol) : t'.goto? n s = t.goto? n s := by
  induction h with
  | nil => rfl
  | cons head _ ih => exact ih.trans (head.goto n s)

/-- What a cell holds was there before, or was entered. -/
theorem action?_mem {n : Nat} {s : Symbol} {action : Action} (h : t.History es t')
    (ha : t'.action? n s = some action) :
    t.action? n s = some action ∨ ⟨n, s, action⟩ ∈ es := by
  induction h with
  | nil => exact Or.inl ha
  | cons head _ ih =>
      rcases ih ha with h₁ | hmem
      · rcases head.action?_cases h₁ with hold | hnew
        · exact Or.inl hold
        · exact Or.inr (by simp [hnew])
      · exact Or.inr (List.mem_cons_of_mem _ hmem)

/-- Conflicts are never taken back. -/
theorem conflicts_eq_nil (h : t.History es t') (hvalid : t'.conflicts.toList = []) :
    t.conflicts.toList = [] := by
  induction h with
  | nil => exact hvalid
  | cons head _ ih =>
      have h₁ := ih hvalid
      rw [head.conflicts] at h₁
      exact (List.append_eq_nil_iff.mp h₁).1

/-- Without a conflict, what a cell holds agrees with everything it held before. -/
theorem agrees_of_action? {n : Nat} {s : Symbol} {old : Action} (h : t.History es t')
    (hvalid : t'.conflicts.toList = []) (hold : t.action? n s = some old) :
    ∃ kept, t'.action? n s = some kept ∧ old.Agrees kept := by
  induction h generalizing old with
  | nil => exact ⟨old, hold, .refl old⟩
  | cons head tail ih =>
      obtain ⟨mid, hmid, hagrees⟩ := head.agrees_old (tail.conflicts_eq_nil hvalid) hold
      obtain ⟨kept, hkept, hagrees'⟩ := ih hvalid hmid
      exact ⟨kept, hkept, hagrees.trans hagrees'⟩

/-- Without a conflict, what a cell holds agrees with everything that was entered there. -/
theorem agrees_of_mem {e : Entry} (h : t.History es t') (hvalid : t'.conflicts.toList = [])
    (he : e ∈ es) : ∃ kept, t'.action? e.row e.lookahead = some kept ∧ e.action.Agrees kept := by
  induction h with
  | nil => simp at he
  | cons head tail ih =>
      rcases List.mem_cons.mp he with rfl | he
      · obtain ⟨mid, hmid, hagrees⟩ := head.agrees_new (tail.conflicts_eq_nil hvalid)
        obtain ⟨kept, hkept, hagrees'⟩ := tail.agrees_of_action? hvalid hmid
        exact ⟨kept, hkept, hagrees.trans hagrees'⟩
      · exact ih hvalid he

end History

end Table

end ShiftReduce
