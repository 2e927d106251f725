import Mathlib.Data.Finset.Dedup
import Mathlib.Data.Finset.Card
import ShiftReduce.Proofs.Table.History

/-!
# ShiftReduce.Proofs.Table.Cell

**One cell of a table.** Of a history of insertions a cell sees only its own actions
(`Table.cellActions`), and these decide what it holds and how often it records a conflict:

* after any actions but errors it holds `Action.preferred` of them: accept if it was entered, else
  the first shift, else the first reduction (`Action.cellAfter_eq_preferred`);
* if the actions come in an order that `Action.MayPrecede` allows, the conflicts are one fewer than
  the different actions (`Action.clashCount_eq_card`).

Both are inductions on the history from its end: what matters of the earlier actions is the one that
they left in the cell.
-/

namespace ShiftReduce

namespace Action

/-! ### The action that stays -/

def isShift : Action → Bool
  | .shift _ => true
  | _ => false

def isReduce : Action → Bool
  | .reduce _ => true
  | _ => false

theorem exists_of_isShift {action : Action} (h : action.isShift = true) :
    ∃ m, action = .shift m := by
  cases action <;> simp [isShift] at h ⊢

theorem exists_of_isReduce {action : Action} (h : action.isReduce = true) :
    ∃ r, action = .reduce r := by
  cases action <;> simp [isReduce] at h ⊢

/-- The action that stays of several: accept, else the first shift, else the first reduction. -/
def preferred (actions : List Action) : Option Action :=
  (actions.find? (· == .accept)).or ((actions.find? isShift).or (actions.find? isReduce))

variable {actions : List Action} {action : Action}

theorem preferred_of_accept_mem (h : .accept ∈ actions) : preferred actions = some .accept := by
  have hsome : (actions.find? (· == accept)).isSome = true :=
    List.find?_isSome.mpr ⟨accept, h, by simp⟩
  obtain ⟨found, hfound⟩ := Option.isSome_iff_exists.mp hsome
  obtain rfl : found = .accept := by simpa using List.find?_some hfound
  rw [preferred, hfound]
  rfl

theorem preferred_of_accept_notMem (h : .accept ∉ actions) :
    preferred actions = (actions.find? isShift).or (actions.find? isReduce) := by
  have hnone : actions.find? (· == .accept) = none := by
    rw [List.find?_eq_none]
    intro action hmem haccept
    obtain rfl : action = .accept := by simpa using haccept
    exact h hmem
  rw [preferred, hnone]
  rfl

/-- Without accept, a shift stays. -/
theorem preferred_of_shift_mem (haccept : .accept ∉ actions) {m : Nat} (h : .shift m ∈ actions) :
    ∃ k, .shift k ∈ actions ∧ preferred actions = some (.shift k) := by
  have hsome : (actions.find? isShift).isSome = true := List.find?_isSome.mpr ⟨_, h, rfl⟩
  obtain ⟨found, hfound⟩ := Option.isSome_iff_exists.mp hsome
  obtain ⟨k, rfl⟩ := exists_of_isShift (List.find?_some hfound)
  refine ⟨k, List.mem_of_find?_eq_some hfound, ?_⟩
  rw [preferred_of_accept_notMem haccept, hfound]
  rfl

/-- Without accept and shifts, the first reduction stays. -/
theorem preferred_of_shift_notMem (haccept : .accept ∉ actions) (hshift : ∀ m, .shift m ∉ actions) :
    preferred actions = actions.find? isReduce := by
  have hnone : actions.find? isShift = none := by
    rw [List.find?_eq_none]
    intro action hmem his
    obtain ⟨m, rfl⟩ := exists_of_isShift his
    exact hshift m hmem
  rw [preferred_of_accept_notMem haccept, hnone]
  rfl

theorem mem_of_preferred (h : preferred actions = some action) : action ∈ actions := by
  rcases Option.or_eq_some_iff.mp h with h | ⟨-, h⟩
  · exact List.mem_of_find?_eq_some h
  · rcases Option.or_eq_some_iff.mp h with h | ⟨-, h⟩
    · exact List.mem_of_find?_eq_some h
    · exact List.mem_of_find?_eq_some h

/-- One of several actions stays, whichever they are. -/
theorem exists_preferred (herror : .error ∉ actions) (hne : actions ≠ []) :
    ∃ action, preferred actions = some action := by
  obtain ⟨action, hmem⟩ := List.exists_mem_of_ne_nil actions hne
  by_cases haccept : .accept ∈ actions
  · exact ⟨_, preferred_of_accept_mem haccept⟩
  · by_cases hshift : ∃ m, .shift m ∈ actions
    · obtain ⟨m, hm⟩ := hshift
      obtain ⟨k, -, hk⟩ := preferred_of_shift_mem haccept hm
      exact ⟨_, hk⟩
    · rw [preferred_of_shift_notMem haccept (not_exists.mp hshift), ← Option.isSome_iff_exists,
        List.find?_isSome]
      refine ⟨action, hmem, ?_⟩
      cases action with
      | accept => exact absurd hmem haccept
      | shift m => exact absurd ⟨m, hmem⟩ hshift
      | reduce r => rfl
      | error => exact absurd hmem herror

/-! ### Filling a cell -/

/-- What a cell holds after several insertions. -/
def cellAfter (cell : Option Action) (actions : List Action) : Option Action :=
  actions.foldl (fun cell action => some (Table.settled cell action)) cell

/-- Settling one more action is preferring it or not. -/
theorem settled_preferred (h : action ≠ .error) :
    some (Table.settled (preferred actions) action) = preferred (actions ++ [action]) := by
  simp only [preferred, List.find?_append]
  cases haccept : actions.find? (· == .accept) with
  | some found =>
      obtain rfl : found = .accept := by simpa using List.find?_some haccept
      cases action <;> simp [Table.settled, settle]
  | none =>
      cases hshift : actions.find? isShift with
      | some found =>
          obtain ⟨m, rfl⟩ := exists_of_isShift (List.find?_some hshift)
          cases action <;> simp [Table.settled, settle]
      | none =>
          cases hreduce : actions.find? isReduce with
          | some found =>
              obtain ⟨r, rfl⟩ := exists_of_isReduce (List.find?_some hreduce)
              cases action with
              | reduce q =>
                  have hkept : ((reduce r).settle (reduce q)).1 = reduce r := by
                    rw [settle]
                    split <;> rfl
                  simpa [Table.settled, isShift] using hkept
              | error => exact absurd rfl h
              | _ => simp [Table.settled, settle, isShift]
          | none => cases action <;> simp [Table.settled, isShift, isReduce] at h ⊢

/-- After any actions a cell holds the preferred one. -/
theorem cellAfter_eq_preferred (h : .error ∉ actions) :
    cellAfter none actions = preferred actions := by
  induction actions using List.reverseRecOn with
  | nil => rfl
  | append_singleton actions action ih =>
      rw [List.mem_append, not_or, List.mem_singleton] at h
      have hlast : cellAfter none (actions ++ [action]) =
          some (Table.settled (cellAfter none actions) action) := by simp [cellAfter]
      rw [hlast, ih h.1, settled_preferred (Ne.symm h.2)]

/-! ### Counting conflicts -/

/-- Whether an insertion into a cell is a conflict. -/
def clashes (cell : Option Action) (action : Action) : Bool :=
  (cell.bind fun old => (old.settle action).2).isSome

/-- How many conflicts several insertions bring about. -/
def clashCount : Option Action → List Action → Nat
  | _, [] => 0
  | cell, action :: rest =>
    (if clashes cell action then 1 else 0) + clashCount (some (Table.settled cell action)) rest

theorem clashCount_append_singleton (cell : Option Action) :
    clashCount cell (actions ++ [action]) =
      clashCount cell actions + if clashes (cellAfter cell actions) action then 1 else 0 := by
  induction actions generalizing cell with
  | nil => exact Nat.add_comm _ _
  | cons first rest ih =>
      rw [List.cons_append, clashCount, ih, clashCount, Nat.add_assoc]
      rfl

/-- The order in which the items of a state bring their actions for a cell: shifts go to one state,
reductions are numbered upwards, and accept comes once and not with a shift. -/
def MayPrecede : Action → Action → Prop
  | .accept, .accept => False
  | .accept, .shift _ => False
  | .shift _, .accept => False
  | .shift m, .shift n => m = n
  | .reduce r, .reduce q => r < q
  | _, _ => True

/-- Only a shift may come twice. -/
theorem MayPrecede.exists_shift (h : action.MayPrecede action) (herror : action ≠ .error) :
    ∃ m, action = .shift m := by
  cases action with
  | accept => exact h.elim
  | reduce r => exact absurd h (Nat.lt_irrefl r)
  | shift m => exact ⟨m, rfl⟩
  | error => exact absurd rfl herror

/-- Of reductions that are numbered upwards the least stays. -/
theorem preferred_of_reduce_mem (hpairwise : actions.Pairwise MayPrecede)
    (haccept : .accept ∉ actions) (hshift : ∀ m, .shift m ∉ actions) {r : Nat}
    (h : .reduce r ∈ actions) (hleast : ∀ q, .reduce q ∈ actions → r ≤ q) :
    preferred actions = some (.reduce r) := by
  have hsome : (actions.find? isReduce).isSome = true := List.find?_isSome.mpr ⟨_, h, rfl⟩
  obtain ⟨found, hfound⟩ := Option.isSome_iff_exists.mp hsome
  obtain ⟨k, rfl⟩ := exists_of_isReduce (List.find?_some hfound)
  rw [preferred_of_shift_notMem haccept hshift, hfound]
  obtain ⟨-, before, after, rfl, hbefore⟩ := List.find?_eq_some_iff_append.mp hfound
  rcases List.mem_append.mp h with h | h
  · exact absurd (hbefore _ h) (by simp [isReduce])
  · rcases List.mem_cons.mp h with heq | h
    · rw [heq]
    · -- a reduction after the first one has a larger number
      have hafter := (List.pairwise_append.mp hpairwise).2.1
      have hlt : k < r := List.rel_of_pairwise_cons hafter h
      exact absurd (hleast k (by simp)) (Nat.not_le.mpr hlt)

/-- An action that came before is settled without a conflict. -/
theorem clashes_eq_false (hprecede : ∀ old ∈ actions, old.MayPrecede action)
    (herror : action ≠ .error) (h : action ∈ actions) :
    clashes (preferred actions) action = false := by
  obtain ⟨m, rfl⟩ := (hprecede action h).exists_shift herror
  have haccept : .accept ∉ actions := fun hmem => hprecede _ hmem
  obtain ⟨k, hk, hpreferred⟩ := preferred_of_shift_mem haccept h
  obtain rfl : k = m := hprecede _ hk
  simp [hpreferred, clashes, settle]

/-- A different action conflicts with the one that stayed. -/
theorem clashes_eq_true {old : Action} (hprecede : old.MayPrecede action) (hne : old ≠ action) :
    clashes (some old) action = true := by
  cases old <;> cases action <;> simp_all [clashes, settle, MayPrecede]

/-- Every action but the first of its kind is a conflict, once. -/
theorem clashCount_eq_card (hpairwise : actions.Pairwise MayPrecede) (herror : .error ∉ actions) :
    clashCount none actions = actions.toFinset.card - 1 := by
  induction actions using List.reverseRecOn with
  | nil => rfl
  | append_singleton actions action ih =>
      rw [List.mem_append, not_or, List.mem_singleton] at herror
      obtain ⟨hinit, -, hlast⟩ := List.pairwise_append.mp hpairwise
      have hprecede : ∀ old ∈ actions, old.MayPrecede action := fun old hold =>
        hlast old hold action (List.mem_singleton.mpr rfl)
      have hfinset : (actions ++ [action]).toFinset = insert action actions.toFinset := by
        ext x
        simp
      rw [clashCount_append_singleton, ih hinit herror.1, cellAfter_eq_preferred herror.1, hfinset]
      by_cases hmem : action ∈ actions
      · rw [clashes_eq_false hprecede (Ne.symm herror.2) hmem,
          Finset.insert_eq_of_mem (List.mem_toFinset.mpr hmem)]
        rfl
      · rw [Finset.card_insert_of_notMem (mt List.mem_toFinset.mp hmem)]
        rcases List.eq_nil_or_concat actions with rfl | ⟨init, last, rfl⟩
        · rfl
        · -- the cell is taken, by an action that is not the new one
          obtain ⟨old, hold⟩ := exists_preferred herror.1 (by simp)
          have holdMem := mem_of_preferred hold
          have hne : old ≠ action := fun heq => hmem (heq ▸ holdMem)
          have hpos : 0 < ((init.concat last).toFinset).card :=
            Finset.card_pos.mpr ⟨old, List.mem_toFinset.mpr holdMem⟩
          rw [hold, clashes_eq_true (hprecede old holdMem) hne, if_pos rfl]
          omega

example : clashCount none [.reduce 1, .shift 4, .shift 4, .reduce 2] = 2 := by decide

end Action

/-! ### The cells of a table -/

/-- Whether a conflict arose in a cell. -/
def Conflict.inCell (n : Nat) (s : Symbol) (c : Conflict) : Bool :=
  c.state == n && c.lookahead == s

namespace Table

/-- The action of an entry, if it is for the given cell. -/
def Entry.at? (n : Nat) (s : Symbol) (e : Entry) : Option Action :=
  if n = e.row ∧ s = e.lookahead then some e.action else none

/-- The actions that are entered into a cell, in order. -/
def cellActions (es : List Entry) (n : Nat) (s : Symbol) : List Action :=
  es.filterMap (Entry.at? n s)

theorem mem_cellActions {es : List Entry} {n : Nat} {s : Symbol} {action : Action} :
    action ∈ cellActions es n s ↔ ⟨n, s, action⟩ ∈ es := by
  simp only [cellActions, List.mem_filterMap, Entry.at?, Option.ite_none_right_eq_some,
    Option.some.injEq]
  constructor
  · rintro ⟨e, he, ⟨rfl, rfl⟩, rfl⟩
    exact he
  · intro he
    exact ⟨_, he, ⟨rfl, rfl⟩, rfl⟩

theorem cellActions_cons (e : Entry) (es : List Entry) (n : Nat) (s : Symbol) :
    cellActions (e :: es) n s =
      if n = e.row ∧ s = e.lookahead then e.action :: cellActions es n s
      else cellActions es n s := by
  rw [cellActions, List.filterMap_cons, Entry.at?]
  split <;> rename_i h <;> split at h <;> simp_all [cellActions]

theorem cellActions_append (es fs : List Entry) (n : Nat) (s : Symbol) :
    cellActions (es ++ fs) n s = cellActions es n s ++ cellActions fs n s :=
  List.filterMap_append

variable {t t' : Table} {es : List Entry}

/-- A cell holds what its own actions leave there. -/
theorem History.action?_eq (h : t.History es t') (n : Nat) (s : Symbol) :
    t'.action? n s = Action.cellAfter (t.action? n s) (cellActions es n s) := by
  induction h with
  | nil => rfl
  | @cons t t₁ t' e es head _ ih =>
      rw [ih, head.action, cellActions_cons]
      by_cases hcell : n = e.row ∧ s = e.lookahead
      · rw [if_pos hcell, if_pos hcell]
        rfl
      · rw [if_neg hcell, if_neg hcell]

/-- The conflict of an insertion is in the cell of the insertion. -/
theorem Entry.countP_clash? (e : Entry) (old : Option Action) (n : Nat) (s : Symbol) :
    (e.clash? old).toList.countP (Conflict.inCell n s) =
      if n = e.row ∧ s = e.lookahead ∧ Action.clashes old e.action = true then 1 else 0 := by
  cases old with
  | none => simp [clash?, Action.clashes]
  | some old =>
      cases hclash : (old.settle e.action).2 with
      | none => simp [clash?, Action.clashes, hclash]
      | some clash =>
          simp only [clash?, Action.clashes, hclash, Option.bind_some, Option.map_some,
            Option.toList_some, List.countP_singleton, Conflict.inCell, Bool.and_eq_true,
            beq_iff_eq, Option.isSome_some, and_true]
          exact if_congr (and_congr eq_comm eq_comm) rfl rfl

/-- A cell records the conflicts that its own actions bring about. -/
theorem History.countP_conflicts (h : t.History es t') (n : Nat) (s : Symbol) :
    t'.conflicts.toList.countP (Conflict.inCell n s) =
      t.conflicts.toList.countP (Conflict.inCell n s) +
        Action.clashCount (t.action? n s) (cellActions es n s) := by
  induction h with
  | nil => rfl
  | @cons t t₁ t' e es head _ ih =>
      rw [ih, head.conflicts, List.countP_append, Entry.countP_clash?, head.action,
        cellActions_cons]
      by_cases hcell : n = e.row ∧ s = e.lookahead
      · obtain ⟨rfl, rfl⟩ := hcell
        simp only [and_self, if_true, true_and, Action.clashCount, Nat.add_assoc]
      · have hno : ¬(n = e.row ∧ s = e.lookahead ∧
            Action.clashes (t.action? e.row e.lookahead) e.action = true) :=
          fun hall => hcell ⟨hall.1, hall.2.1⟩
        rw [if_neg hno, if_neg hcell, if_neg hcell]
        rfl

/-- A table is valid if no cell has a conflict. -/
theorem isValid_iff_countP (t : Table) :
    t.isValid = true ↔ ∀ n s, t.conflicts.toList.countP (Conflict.inCell n s) = 0 := by
  have hempty : t.isValid = true ↔ t.conflicts.toList = [] := by simp [isValid]
  rw [hempty]
  constructor
  · intro h n s
    rw [h]
    rfl
  · intro h
    refine List.eq_nil_iff_forall_not_mem.mpr fun c hc => ?_
    have hpos : 0 < t.conflicts.toList.countP (Conflict.inCell c.state c.lookahead) :=
      List.countP_pos_iff.mpr ⟨c, hc, by simp [Conflict.inCell]⟩
    exact absurd (h c.state c.lookahead) (Nat.ne_of_gt hpos)

/-- How many conflicts a cell records, of both kinds. -/
def conflictCount (t : Table) (n : Nat) (s : Symbol) : Nat :=
  (t.rowConflicts .shiftReduce n).countP (·.lookahead == s) +
    (t.rowConflicts .reduceReduce n).countP (·.lookahead == s)

/-- The conflicts of the two kinds are all conflicts of a cell. -/
theorem countP_rowConflicts (t : Table) (n : Nat) (s : Symbol) :
    (t.rowConflicts .shiftReduce n).countP (·.lookahead == s) +
      (t.rowConflicts .reduceReduce n).countP (·.lookahead == s) =
        t.conflicts.toList.countP (Conflict.inCell n s) := by
  simp only [rowConflicts, conflictsOf, List.countP_filter]
  induction t.conflicts.toList with
  | nil => rfl
  | cons c conflicts ih =>
      simp only [List.countP_cons, ← ih, Conflict.inCell]
      cases c.kind <;> simp <;> grind

end Table

end ShiftReduce
